/-
# `Yuva.Kernel.Memory` — each substrate sees the run of its own operations

A call reaches at most one substrate and runs one operation there.  `Proc.memCall` says
which, for a dispatched call: the cell behind the object the gate let through, and the
operation its method stands for.  `World.memCall` says it for every call of the machine,
the harness's included, and `step_mems` that nothing else is written, a minting apart.

A new object's cell is fresh: every object a table or a ring holds was minted below
`next` (`Homed`), so no operation reached the cell before.  Along a run from boot each
substrate is then the run of its own operations from the empty one (`mems_boot`), which is how
a result about `Yuva.Mem` becomes one about the kernel.
-/
import Yuva.Kernel.Confine
import Yuva.Kernel.Gates

namespace Yuva.Kernel

open Yuva.Caps CapTable Yuva.Ipc Yuva.Mem Yuva.Blocks Yuva.Run Yuva.Relocate

variable {ι : Type*} [DecidableEq ι]

/-! ## The dispatched calls -/

/-- The operation a method runs on the substrate behind object `o`. -/
def memOp (o : Obj) (a : SyscallArgs) : Method → Option MemSubstrate.Op
  | .memWrite => some (.write a.a0 a.a1 a.a2 a.a3)
  | .memWriteProc => some (.writeProc a.a0 a.a1 a.a2 a.a3)
  | .memRecall => some (.tbRecall a.a0 a.a1 a.a2 a.a3)
  | .memConsolidate => some (.consolidate a.a0 a.a1 a.a2 a.a3)
  | .memRead => if o.body.kind = .memoryHome then some (.readTouch a.a0) else none
  | _ => none

theorem memOp_dispatched {o : Obj} {a : SyscallArgs} {m : Method} {op : MemSubstrate.Op}
    (h : memOp o a m = some op) : Dispatched op := by
  cases m with
  | memWrite | memWriteProc | memRecall | memConsolidate => cases h; exact trivial
  | memRead =>
      rw [memOp] at h
      split at h
      · cases h; exact trivial
      · cases h
  | objectInspect | handleDup | handleNarrow | handleTransfer | handleRevoke | handleClose
  | agentSpawn | emitExternal | budgetDelegate | chanSend | chanRecv | chanClose | blockMap
  | blockUnmap | modelInvokeBytes | modelInvoke | blockWrite | blockRead => cases h

/-- The substrate behind an object, and the operation a method runs there. -/
def memTarget (o : Obj) (a : SyscallArgs) (m : Method) : Option (Nat × MemSubstrate.Op) :=
  match o.body.mem, memOp o a m with
  | some cell, some op => some (cell, op)
  | _, _ => none

theorem memTarget_of_memOp {o : Obj} {a : SyscallArgs} {m : Method} (h : memOp o a m = none) :
    memTarget o a m = none := by
  rw [memTarget, h]
  cases o.body.mem <;> rfl

theorem memTarget_of_mem {o : Obj} {a : SyscallArgs} {m : Method} {op : MemSubstrate.Op}
    (h : memOp o a m = some op) : memTarget o a m = o.body.mem.map fun cell => (cell, op) := by
  rw [memTarget, h]
  cases o.body.mem <;> rfl

theorem memTarget_eq_some {o : Obj} {a : SyscallArgs} {m : Method} {cell : Nat} {op : MemSubstrate.Op}
    (h : memTarget o a m = some (cell, op)) : o.body.mem = some cell ∧ memOp o a m = some op := by
  rw [memTarget] at h
  split at h
  · next hcell hop =>
      cases h
      exact ⟨hcell, hop⟩
  · cases h

/-- The substrates after an operation on one of them, or none. -/
def ranOn (mems : Nat → MemSubstrate) : Option (Nat × MemSubstrate.Op) → Nat → MemSubstrate
  | some (cell, op) => Function.update mems cell ((mems cell).step op)
  | none => mems

namespace Proc

/-- The method and the object of a call that the latch, the handle and the right let
through. -/
def gate (p : Proc) (deny : Bool) (a : SyscallArgs) : Option (Method × Obj) :=
  if deny && (Method.ofNumber a.method).any isCognitiveFamily then none
  else
    match Method.ofNumber a.method, p.table.live a.handle with
    | some m, .ok i =>
        if !(p.table.rightsAt i).contains (requiredRight m) then none
        else (p.table.objectAt i).map fun o => (m, o)
    | _, _ => none

/-- The substrate a dispatched call reaches, and the operation it runs there. -/
def memCall (p : Proc) (deny : Bool) (a : SyscallArgs) : Option (Nat × MemSubstrate.Op) :=
  (p.gate deny a).bind fun mo => memTarget mo.2 a mo.1

/-- A call that does not pass the gate is refused; one that does runs its arm. -/
theorem dispatch_gate (p : Proc) (deny : Bool) (a : SyscallArgs) :
    (p.gate deny a = none ∧ (p.dispatch deny a).2 = p ∧ (p.dispatch deny a).1.status ≠ .ok) ∨
    ∃ m i o, p.gate deny a = some (m, o) ∧ Method.ofNumber a.method = some m ∧
      p.table.live a.handle = .ok i ∧ p.table.objectAt i = some o ∧
      (p.table.rightsAt i).contains (requiredRight m) = true ∧ p.dispatch deny a = p.run m i a := by
  rw [gate, dispatch]
  split
  · exact .inl ⟨rfl, rfl, fun h => SysStatus.noConfusion h⟩
  · cases hm : Method.ofNumber a.method with
    | none => exact .inl ⟨rfl, rfl, fun h => SysStatus.noConfusion h⟩
    | some m =>
        cases hl : p.table.live a.handle with
        | error e => exact .inl ⟨rfl, rfl, live_error_ne_ok hl⟩
        | ok i =>
            dsimp only
            split
            · exact .inl ⟨rfl, rfl, fun h => SysStatus.noConfusion h⟩
            · next hright =>
                obtain ⟨-, o, -, -, ho, -⟩ := objectAt_of_live hl
                refine .inr ⟨m, i, o, ?_, rfl, rfl, ho, by simpa using hright, rfl⟩
                rw [ho, Option.map_some]

theorem onMem_cell (p : Proc) {o : Obj} {cell : Nat} (h : o.body.mem = some cell)
    (f : MemSubstrate → SysReturn × MemSubstrate) :
    p.onMem o f = ((f (p.heap.mems cell)).1, p.setMem cell (f (p.heap.mems cell)).2) := by
  rw [onMem, h]

theorem onMem_mems (p : Proc) {o : Obj} {f : MemSubstrate → SysReturn × MemSubstrate}
    {a : SyscallArgs} {m : Method} {op : MemSubstrate.Op} (hop : memOp o a m = some op)
    (hf : ∀ s, (f s).2 = s.step op) :
    (p.onMem o f).2.heap.mems = ranOn p.heap.mems (memTarget o a m) := by
  rw [onMem, memTarget_of_mem hop]
  cases o.body.mem with
  | none => rfl
  | some cell =>
      dsimp only
      rw [hf]
      rfl

theorem onBlock_mems (p : Proc) (o : Obj) (f : Yuva.Blocks.Block → SysReturn × Yuva.Blocks.Block) :
    (p.onBlock o f).2.heap.mems = p.heap.mems := by
  rw [onBlock]
  split
  · rfl
  · split <;> rfl

/-- What the arm of a method does to the substrates. -/
theorem objectArm_mems (p : Proc) (m : Method) (o : Obj) (a : SyscallArgs) :
    (p.objectArm m o a).2.heap.mems = ranOn p.heap.mems (memTarget o a m) := by
  cases m with
  | memWrite => exact onMem_mems p rfl fun _ => rfl
  | memWriteProc => exact onMem_mems p rfl fun _ => rfl
  | memConsolidate => exact onMem_mems p rfl fun _ => rfl
  | memRead =>
      rw [objectArm, readArm]
      cases hk : o.body.kind with
      | memoryHome =>
          have hop : memOp o a .memRead = some (.readTouch a.a0) := by rw [memOp, if_pos hk]
          exact onMem_mems p hop fun _ => rfl
      | agent | modelSession | memoryRecord | budget | channel | skill | nameSpace | generic | block =>
          rw [memTarget_of_memOp (by rw [memOp, hk]; rfl)]
          rfl
  | memRecall =>
      rw [objectArm, recallArm, memTarget_of_mem (m := .memRecall) rfl]
      cases o.body.mem with
      | none => rfl
      | some cell =>
          dsimp only
          split <;> rfl
  | blockWrite | blockRead =>
      rw [memTarget_of_memOp rfl]
      exact onBlock_mems p o _
  | modelInvoke =>
      rw [memTarget_of_memOp rfl, objectArm]
      split
      · rfl
      · rfl
  | objectInspect | handleDup | handleNarrow | handleTransfer | handleRevoke | handleClose
  | agentSpawn | emitExternal | budgetDelegate | chanSend | chanRecv | chanClose | blockMap
  | blockUnmap | modelInvokeBytes =>
      rw [memTarget_of_memOp rfl]
      rfl

theorem run_mems {p : Proc} {m : Method} {i : Nat} {o : Obj} {a : SyscallArgs}
    (ho : p.table.objectAt i = some o) :
    (p.run m i a).2.heap.mems = ranOn p.heap.mems (memTarget o a m) := by
  cases m with
  | memWrite | memWriteProc | memRecall | memConsolidate | memRead | blockWrite | blockRead
  | modelInvoke =>
      unfold run
      dsimp only
      rw [ho]
      exact objectArm_mems p _ o a
  | objectInspect | handleDup | handleNarrow | handleTransfer | handleRevoke | handleClose
  | agentSpawn | emitExternal | budgetDelegate | chanSend | chanRecv | chanClose | blockMap
  | blockUnmap | modelInvokeBytes =>
      rw [memTarget_of_memOp rfl]
      rfl

/-- A dispatched call writes the substrate `memCall` names, and no other. -/
theorem dispatch_mems (p : Proc) (deny : Bool) (a : SyscallArgs) :
    (p.dispatch deny a).2.heap.mems = ranOn p.heap.mems (p.memCall deny a) := by
  rcases p.dispatch_gate deny a with ⟨hg, hp, -⟩ | ⟨m, i, o, hg, -, -, ho, -, hrun⟩
  · rw [memCall, hg, hp]
    rfl
  · rw [memCall, hg, hrun, run_mems ho]
    rfl

/-- The substrate a dispatched call reaches is behind its handle. -/
theorem memCall_cell {p : Proc} {deny : Bool} {a : SyscallArgs} {cell : Nat} {op : MemSubstrate.Op}
    (h : p.memCall deny a = some (cell, op)) : memCell p.table a.handle = some cell ∧ Dispatched op := by
  rw [memCall] at h
  rcases p.dispatch_gate deny a with ⟨hg, -⟩ | ⟨m, i, o, hg, -, hl, ho, -⟩
  · rw [hg] at h
    cases h
  · rw [hg, Option.bind_some, memTarget] at h
    split at h
    · next cell' op' hcell hop =>
        cases h
        refine ⟨?_, memOp_dispatched hop⟩
        rw [memCell, hl]
        dsimp only
        rw [ho]
        exact hcell
    · cases h

/-! ## The harness -/

/-- The substrate, the skill and the score of an evaluation that goes through. -/
def evaluation (p : Proc) (skillHome : Handle) (skillId : BitVec 64) (evalTbl : CapTable Obj)
    (evalHome : Handle) : Option (Nat × BitVec 32) :=
  (memCell p.table skillHome).bind fun cell =>
    ((p.heap.mems cell).skillGet skillId).bind fun skill =>
      (scoreOf p.heap evalTbl evalHome skill.1).map fun score => (cell, score)

/-- An evaluation ends in the verdict on its score, and is answered with both. -/
theorem harnessAdmit_evaluation (p : Proc) (home : Handle) (id : BitVec 64) (evalTbl : CapTable Obj)
    (evalHome : Handle) :
    p.harnessAdmit home id evalTbl evalHome = match p.evaluation home id evalTbl evalHome with
      | none => ((false, 0), p)
      | some (cell, score) => ((((p.heap.mems cell).skillAdmit id score).1, score),
          p.setMem cell ((p.heap.mems cell).skillAdmit id score).2) := by
  rw [harnessAdmit, evaluation, skillGetOf]
  cases hcell : memCell p.table home with
  | none => rfl
  | some cell =>
      rw [Option.bind_some, Option.bind_some]
      cases (p.heap.mems cell).skillGet id with
      | none => rfl
      | some skill =>
          obtain ⟨body, tier⟩ := skill
          dsimp only
          rw [Option.bind_some]
          cases scoreOf p.heap evalTbl evalHome body with
          | none => rfl
          | some score =>
              dsimp only
              rw [Option.map_some, skillAdmitOf, hcell]

/-- The gate of a merge. -/
def mergeGate (p : Proc) (skillHome : Handle) (skillId : BitVec 64) (approvalTbl : CapTable Obj)
    (approval : Handle) : Bool :=
  match p.skillHighImpactOf skillHome skillId with
  | none => false
  | some false => true
  | some true =>
      match carriesApproval approvalTbl approval with
      | .ok carried => carried
      | .error _ => false

theorem harnessMerge_gate (p : Proc) (home : Handle) (id : BitVec 64) (evalTbl approvalTbl : CapTable Obj)
    (evalHome approval : Handle) :
    (p.harnessMerge home id evalTbl evalHome approvalTbl approval).2 =
      if p.mergeGate home id approvalTbl approval then (p.harnessAdmit home id evalTbl evalHome).2
      else p := by
  rw [harnessMerge, mergeGate]
  dsimp only
  cases p.skillHighImpactOf home id with
  | none => rfl
  | some high =>
      cases high with
      | false => rfl
      | true =>
          dsimp only
          cases carriesApproval approvalTbl approval with
          | error e => rfl
          | ok carried => cases carried <;> rfl

end Proc

namespace World

/-- The evaluation a harness call runs: the substrate, the skill and the score. -/
def evaluation (w : World ι) : Op ι → Option (Nat × BitVec 64 × BitVec 32)
  | .harnessAdmit t home id et eh =>
      ((w.proc t).evaluation home id (w.tables et) eh).map fun e => (e.1, id, e.2)
  | .harnessMerge t home id et eh at' ah =>
      if (w.proc t).mergeGate home id (w.tables at') ah then
        ((w.proc t).evaluation home id (w.tables et) eh).map fun e => (e.1, id, e.2)
      else none
  | .harnessAdmitRotating t home id et ehs rotation =>
      if ehs = [] then none
      else ((w.proc t).evaluation home id (w.tables et)
        (ehs.getD (rotation.toNat % ehs.length) Handle.NULL)).map fun e => (e.1, id, e.2)
  | _ => none

/-- The substrate a call of the machine reaches, and the operation it runs there. -/
def memCall (w : World ι) (op : Op ι) : Option (Nat × MemSubstrate.Op) :=
  match op with
  | .dispatch t a => (w.proc t).memCall w.cognitiveDeny a
  | .evalSeedHeldout t eh target base n =>
      (memCell (w.tables t) eh).map fun cell => (cell, .seedHeldout target base n)
  | op => (w.evaluation op).map fun e => (e.1, .skillAdmit e.2.1 e.2.2)

omit [DecidableEq ι] in
theorem evaluation_mems (w : World ι) (t : ι) (home : Handle) (id : BitVec 64) (evalTbl : CapTable Obj)
    (evalHome : Handle) :
    ((w.proc t).harnessAdmit home id evalTbl evalHome).2.heap.mems =
      ranOn w.heap.mems ((((w.proc t).evaluation home id evalTbl evalHome).map fun e => (e.1, id, e.2)).map
        fun e => (e.1, .skillAdmit e.2.1 e.2.2)) := by
  rw [Proc.harnessAdmit_evaluation]
  cases (w.proc t).evaluation home id evalTbl evalHome <;> rfl

/-- Every call writes the substrate `memCall` names and no other, but that a minting
starts a fresh one. -/
theorem step_mems (w : World ι) (op : Op ι) :
    (w.step op).heap.mems = match op with
      | .mint .. => Function.update w.heap.mems w.heap.next .new
      | op => ranOn w.heap.mems (w.memCall op) := by
  cases op with
  | dispatch t a => exact (w.proc t).dispatch_mems w.cognitiveDeny a
  | harnessAdmit t home id et eh => exact evaluation_mems w t home id _ eh
  | harnessMerge t home id et eh at' ah =>
      show ((w.proc t).harnessMerge home id (w.tables et) eh (w.tables at') ah).2.heap.mems = _
      rw [Proc.harnessMerge_gate]
      simp only [memCall, evaluation]
      cases (w.proc t).mergeGate home id (w.tables at') ah with
      | false => rfl
      | true => exact evaluation_mems w t home id _ eh
  | harnessAdmitRotating t home id et ehs rotation =>
      simp only [memCall, evaluation]
      cases ehs with
      | nil => rfl
      | cons h hs =>
          rw [if_neg (List.cons_ne_nil h hs)]
          exact evaluation_mems w t home id _ _
  | evalSeedHeldout t eh target base n =>
      show ((w.proc t).evalSeedHeldout eh target base n).2.heap.mems = _
      rw [Proc.evalSeedHeldout]
      dsimp only
      rw [memCall]
      split
      · next hcell =>
          rw [show memCell (w.tables t) eh = none from hcell]
          rfl
      · next cell hcell =>
          rw [show memCell (w.tables t) eh = some cell from hcell]
          rfl
  | mint t rights what => rfl
  | chanCall | modelInvokeBytes | createChannel | createBlock | killBlock | setCognitiveDeny => rfl

end World

/-! ## Where objects come from -/

/-- What is held after a call was held before it, or is a new object at `next`. -/
def Comes (w w' : World ι) : Prop :=
  ∀ p o r, w'.contents p = some (o, r) →
    (∃ q r', w.contents q = some (o, r')) ∨
      ∃ what, o = Payload.object w.heap.next what ∧ w.heap.next < w'.heap.next

omit [DecidableEq ι] in
theorem comes_recedes {w w' : World ι} (h : Recedes w.contents w'.contents) : Comes w w' := by
  intro p o r hc
  obtain ⟨q, hq⟩ := h.held hc
  exact .inl ⟨q, r, hq⟩

omit [DecidableEq ι] in
theorem comes_gains {w w' : World ι} {o : Obj} {r : Rights} (h : Gains w.contents w'.contents (o, r))
    (ho : (∃ q r', w.contents q = some (o, r')) ∨
      ∃ what, o = Payload.object w.heap.next what ∧ w.heap.next < w'.heap.next) : Comes w w' := by
  intro p o' r' hc
  rcases h.held hc with heq | hold
  · cases heq
    exact ho
  · exact .inl ⟨p, r', hold⟩

theorem comes_alloc {w w' : World ι} {t : ι} (ht : Sound (w.tables t)) {r : Rights} {o : Obj}
    (htab : w'.tables = Function.update w.tables t ((w.tables t).alloc r o).2)
    (hch : w'.heap.chans = w.heap.chans)
    (ho : (∃ q r', w.contents q = some (o, r')) ∨
      ∃ what, o = Payload.object w.heap.next what ∧ w.heap.next < w'.heap.next) : Comes w w' := by
  rcases contents_alloc ht htab hch with ⟨-, hsame⟩ | ⟨-, hgain⟩
  · exact comes_recedes (.of_eq hsame)
  · exact comes_gains hgain ho

omit [DecidableEq ι] in
theorem comes_same {w w' : World ι} (htab : w'.tables = w.tables) (hch : w'.heap.chans = w.heap.chans) :
    Comes w w' :=
  comes_recedes (.of_eq (contents_same htab hch))

theorem effect_comes {w : World ι} (hs : ∀ t, Sound (w.tables t)) {t : ι} {m : Method} {i : Nat}
    {h : Handle} (hl : (w.tables t).live h = .ok i) {p' : Proc} (he : Effect (w.proc t) m i p') :
    Comes w (w.commit t p') := by
  have hself : Function.update w.tables t (w.tables t) = w.tables := Function.update_eq_self t w.tables
  cases he with
  | same => exact comes_same hself rfl
  | dup o _ ho => exact comes_alloc (hs t) rfl rfl (.inl ⟨.slot t i, _, held_of_live hl ho⟩)
  | narrow o mask _ ho => exact comes_alloc (hs t) rfl rfl (.inl ⟨.slot t i, _, held_of_live hl ho⟩)
  | vacate => exact comes_recedes (contents_vacate rfl rfl)
  | mem => exact comes_same hself rfl
  | recalled cell op scalar => exact comes_alloc (hs t) rfl rfl (.inr ⟨.record scalar, rfl, Nat.lt_succ_self _⟩)
  | chan k => exact comes_recedes (outcome_recedes (hs t) (View.call_outcome (hs t) k) rfl rfl)
  | block => exact comes_same hself rfl

theorem step_comes {w : World ι} (hs : ∀ t, Sound (w.tables t)) (op : Op ι) : Comes w (w.step op) := by
  have hframe : ∀ {t : ι} {p : Proc}, (∃ mems, p = ⟨w.tables t, { w.heap with mems := mems }⟩) →
      Comes w (w.commit t p) := by
    rintro t p ⟨mems, rfl⟩
    exact comes_same (Function.update_eq_self t w.tables) rfl
  cases op with
  | dispatch t a =>
      show Comes w (w.commit t ((w.proc t).dispatch w.cognitiveDeny a).2)
      rcases (w.proc t).dispatch_effect w.cognitiveDeny a with hsame | ⟨m, i, -, hl, -, he, -⟩
      · rw [hsame, w.commit_proc t]
        exact comes_same rfl rfl
      · exact effect_comes hs hl he
  | chanCall t k =>
      exact comes_recedes (outcome_recedes (hs t) (View.call_outcome (hs t) k) rfl rfl)
  | harnessAdmit t home id et eh => exact hframe (harnessAdmit_frame (w.proc t) home id _ eh)
  | harnessMerge t home id et eh at' ah => exact hframe (harnessMerge_frame (w.proc t) home id _ _ eh ah)
  | harnessAdmitRotating t home id et ehs rotation =>
      exact hframe (harnessAdmitRotating_frame (w.proc t) home id _ ehs rotation)
  | evalSeedHeldout t eh target base n => exact hframe (evalSeedHeldout_frame (w.proc t) eh target base n)
  | mint t rights what => exact comes_alloc (hs t) rfl rfl (.inr ⟨what, rfl, Nat.lt_succ_self _⟩)
  | createChannel bound => exact comes_recedes (createChannel_recedes w bound)
  | createBlock | killBlock | setCognitiveDeny | modelInvokeBytes => exact comes_same rfl rfl

/-! ## Runs from boot -/

/-- Objects reach substrates that were handed out, and the others are empty. -/
structure Homed (w : World ι) : Prop where
  sound : ∀ t, Sound (w.tables t)
  home : ∀ p o r, w.contents p = some (o, r) → ∀ cell, o.body.mem = some cell → cell < w.heap.next
  unborn : ∀ cell, w.heap.next ≤ cell → w.heap.mems cell = .new

omit [DecidableEq ι] in
theorem homed_boot (cap : ι → Nat) : Homed (World.boot cap) where
  sound t := sound_withCapacity (cap t)
  home p _ _ h := nomatch (contents_boot cap p).symm.trans h
  unborn _ _ := rfl

omit [DecidableEq ι] in
/-- What a handle reaches was handed out. -/
theorem memCell_lt {w : World ι} (h : Homed w) {t : ι} {hd : Handle} {cell : Nat}
    (hc : memCell (w.tables t) hd = some cell) : cell < w.heap.next := by
  rw [memCell] at hc
  split at hc
  · cases hc
  · next i hl =>
      obtain ⟨o, ho, hmem⟩ := Option.bind_eq_some_iff.mp hc
      exact h.home (.slot t i) o _ (held_of_live hl ho) cell hmem

theorem payload_mem {addr cell : Nat} {what : Payload} (h : (what.object addr).body.mem = some cell) :
    cell = addr := by
  cases what with
  | memoryHome => exact (Option.some.inj h).symm
  | identity | record | endpoint | block | session => cases h

theorem next_le (w : World ι) (hs : ∀ t, Sound (w.tables t)) (op : Op ι) :
    w.heap.next ≤ (w.step op).heap.next := by
  cases step_flow hs op with
  | recedes hn => exact hn
  | copies _ _ _ _ _ _ _ hn => exact hn
  | mints _ _ _ hn => exact Nat.le_of_lt hn

omit [DecidableEq ι] in
theorem evaluation_lt {w : World ι} (h : Homed w) {t : ι} {home : Handle} {id : BitVec 64}
    {evalTbl : CapTable Obj} {evalHome : Handle} {e : Nat × BitVec 32}
    (he : (w.proc t).evaluation home id evalTbl evalHome = some e) : e.1 < w.heap.next := by
  obtain ⟨cell, hcell, he⟩ := Option.bind_eq_some_iff.mp he
  obtain ⟨skill, -, he⟩ := Option.bind_eq_some_iff.mp he
  obtain ⟨score, -, rfl⟩ := Option.map_eq_some_iff.mp he
  exact memCell_lt h hcell

omit [DecidableEq ι] in
/-- Every call reaches a substrate that was handed out. -/
theorem memCall_lt {w : World ι} (h : Homed w) {op : Op ι} {cell : Nat} {o : MemSubstrate.Op}
    (hc : w.memCall op = some (cell, o)) : cell < w.heap.next := by
  have hadmit : ∀ {x : Option (Nat × BitVec 64 × BitVec 32)}, (∀ e, x = some e → e.1 < w.heap.next) →
      x.map (fun e => (e.1, MemSubstrate.Op.skillAdmit e.2.1 e.2.2)) = some (cell, o) →
      cell < w.heap.next := by
    intro x hx hsome
    obtain ⟨e, he, heq⟩ := Option.map_eq_some_iff.mp hsome
    cases heq
    exact hx e he
  have hmap : ∀ {x : Option (Nat × BitVec 32)} {id : BitVec 64}, (∀ e, x = some e → e.1 < w.heap.next) →
      ∀ e, (x.map fun e => (e.1, id, e.2)) = some e → e.1 < w.heap.next := by
    intro x id hx e he
    obtain ⟨e', he', rfl⟩ := Option.map_eq_some_iff.mp he
    exact hx e' he'
  cases op with
  | dispatch t a => exact memCell_lt h (Proc.memCall_cell hc).1
  | evalSeedHeldout t eh target base n =>
      obtain ⟨cell', hcell, heq⟩ := Option.map_eq_some_iff.mp hc
      cases heq
      exact memCell_lt h hcell
  | harnessAdmit t home id et eh => exact hadmit (hmap fun e he => evaluation_lt h he) hc
  | harnessMerge t home id et eh at' ah =>
      refine hadmit (fun e he => ?_) hc
      rw [World.evaluation] at he
      split at he
      · exact hmap (fun e he => evaluation_lt h he) e he
      · cases he
  | harnessAdmitRotating t home id et ehs rotation =>
      refine hadmit (fun e he => ?_) hc
      rw [World.evaluation] at he
      split at he
      · cases he
      · exact hmap (fun e he => evaluation_lt h he) e he
  | mint | chanCall | modelInvokeBytes | createChannel | createBlock | killBlock | setCognitiveDeny =>
      cases hc

theorem ranOn_of_ne {mems : Nat → MemSubstrate} {x : Option (Nat × MemSubstrate.Op)} {cell : Nat}
    (h : ∀ e, x = some e → e.1 ≠ cell) : ranOn mems x cell = mems cell := by
  cases x with
  | none => rfl
  | some e => exact Function.update_of_ne (h e rfl).symm _ _

theorem step_homed {w : World ι} (op : Op ι) (h : Homed w) : Homed (w.step op) := by
  have hn := next_le w h.sound op
  refine ⟨step_sound h.sound op, ?_, ?_⟩
  · intro p o r hc cell hmem
    rcases step_comes h.sound op p o r hc with ⟨q, r', hq⟩ | ⟨what, rfl, hlt⟩
    · exact Nat.lt_of_lt_of_le (h.home q o r' hq cell hmem) hn
    · rw [payload_mem hmem]
      exact hlt
  · intro cell hcell
    have hold : w.heap.mems cell = .new := h.unborn cell (Nat.le_trans hn hcell)
    rw [World.step_mems]
    split
    · rw [Function.update_apply, hold, ite_self]
    · rw [ranOn_of_ne, hold]
      intro e he
      exact Nat.ne_of_lt (Nat.lt_of_lt_of_le (memCall_lt h he) (Nat.le_trans hn hcell))

theorem homed_exec (ops : List (Op ι)) {w : World ι} (h : Homed w) : Homed (exec World.step w ops) :=
  exec_inv (fun _ op hw => step_homed op hw) ops h

/-- The operation, if it is on this substrate. -/
def opOn (cell : Nat) : Option (Nat × MemSubstrate.Op) → List MemSubstrate.Op
  | some (cell', op) => if cell' = cell then [op] else []
  | none => []

/-- The operations a run makes on one substrate. -/
def opsAt (cell : Nat) : World ι → List (Op ι) → List MemSubstrate.Op
  | _, [] => []
  | w, op :: ops => opOn cell (w.memCall op) ++ opsAt cell (w.step op) ops

theorem step_mems_at {w : World ι} (h : Homed w) (op : Op ι) (cell : Nat) :
    (w.step op).heap.mems cell = exec MemSubstrate.step (w.heap.mems cell) (opOn cell (w.memCall op)) := by
  rw [World.step_mems]
  split
  · next t rights what =>
      -- the new cell was empty before
      show Function.update w.heap.mems w.heap.next .new cell = w.heap.mems cell
      rw [Function.update_apply]
      split
      · next heq => rw [heq, h.unborn w.heap.next (Nat.le_refl _)]
      · rfl
  · cases w.memCall op with
    | none => rfl
    | some e =>
        obtain ⟨cell', o⟩ := e
        show Function.update w.heap.mems cell' ((w.heap.mems cell').step o) cell = _
        by_cases heq : cell' = cell
        · subst heq
          rw [Function.update_self, opOn, if_pos rfl]
          rfl
        · rw [Function.update_of_ne (Ne.symm heq), opOn, if_neg heq]
          rfl

/-- Each substrate sees the run of its own operations. -/
theorem mems_exec (ops : List (Op ι)) {w : World ι} (h : Homed w) (cell : Nat) :
    (exec World.step w ops).heap.mems cell =
      exec MemSubstrate.step (w.heap.mems cell) (opsAt cell w ops) := by
  induction ops generalizing w with
  | nil => rfl
  | cons op ops ih => rw [exec_cons, ih (step_homed op h), step_mems_at h op cell, opsAt, exec_append]

/-- A run whose calls meet a guard in the substrates they reach runs each substrate by
operations that meet it. -/
theorem guarded_opsAt {G : MemSubstrate → MemSubstrate.Op → Prop} (ops : List (Op ι)) {w : World ι}
    (h : Homed w)
    (hg : Guarded World.step
      (fun w op => ∀ cell o, w.memCall op = some (cell, o) → G (w.heap.mems cell) o) w ops) (cell : Nat) :
    Guarded MemSubstrate.step G (w.heap.mems cell) (opsAt cell w ops) := by
  induction ops generalizing w with
  | nil => exact trivial
  | cons op ops ih =>
      rw [opsAt, guarded_append, ← step_mems_at h op cell]
      refine ⟨?_, ih (step_homed op h) hg.2⟩
      cases hcall : w.memCall op with
      | none => exact trivial
      | some e =>
          obtain ⟨cell', o⟩ := e
          rw [opOn]
          split
          · next heq => exact ⟨heq ▸ hg.1 cell' o hcall, trivial⟩
          · exact trivial

theorem mems_boot (cap : ι → Nat) (ops : List (Op ι)) (cell : Nat) :
    (exec World.step (World.boot cap) ops).heap.mems cell =
      exec MemSubstrate.step .new (opsAt cell (World.boot cap) ops) :=
  mems_exec ops (homed_boot cap) cell

end Yuva.Kernel
