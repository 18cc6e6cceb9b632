/-
# `Yuva.Kernel.Retries` — what a failed memory call leaves in the substrate

A memory call that fails is meant to be made again once there is room, and the substrate
should not have noticed the first try.  `Stained` is when a call fails after it wrote
there: the operation itself wrote before it failed (`Stains`), or a recall served its
candidate before the caller's table turned out to be full (`Strands`).  `atomic_iff` says
that the call leaves the substrate to a retry exactly when it is not stained: then whatever
table the retry is made from, it answers what the first call would have answered there.
-/
import Yuva.Kernel.Memory
import Yuva.Mem.Failures

namespace Yuva.Kernel

open Yuva.Caps CapTable Yuva.Ipc Yuva.Mem Yuva.Blocks Yuva.Run MemSubstrate

/-! ## The calls that fail -/

/-- The operation has an answer, and the table has room for one that is a handle. -/
def Answers (t : CapTable Obj) (s : MemSubstrate) : MemSubstrate.Op → Prop
  | .write op key value packed => (s.write op key value packed).1 ≠ none
  | .writeProc op a b c => (s.writeProc op a b c).1 ≠ none
  | .readTouch id => (s.readTouch id).1 ≠ none
  | .tbRecall query cursor k weights => (s.tbRecall query cursor k weights).1 ≠ none ∧ t.placed ≠ none
  | _ => True

/-- A recall that serves a record for which the table has no room. -/
def Strands (t : CapTable Obj) (s : MemSubstrate) : MemSubstrate.Op → Prop
  | .tbRecall query cursor _ _ => Eligible (s.fresh cursor) query ∧ t.placed = none
  | _ => False

/-- The call fails after it wrote to the substrate. -/
def Stained (p : Proc) (deny : Bool) (a : SyscallArgs) : Prop :=
  ∃ cell op, p.memCall deny a = some (cell, op) ∧
    (Stains (p.heap.mems cell) op ∨ Strands p.table (p.heap.mems cell) op)

theorem scalar_ok (missing : SysStatus) (h : missing ≠ .ok) (v : Option (BitVec 64)) :
    (SysReturn.scalar missing v).status = .ok ↔ v ≠ none := by
  cases v with
  | none => exact iff_of_false h fun hno => hno rfl
  | some x => exact iff_of_true rfl (Option.some_ne_none x)

theorem handle_ok (h : Option Handle) : (SysReturn.handle h).status = .ok ↔ h ≠ none := by
  cases h with
  | none => exact iff_of_false (fun hno => SysStatus.noConfusion hno) fun hno => hno rfl
  | some x => exact iff_of_true rfl (Option.some_ne_none x)

/-- Whether a handle comes out of a table does not depend on the object. -/
theorem alloc_fst (t : CapTable Obj) (r : Rights) (o o' : Obj) : (t.alloc r o).1 = (t.alloc r o').1 := by
  rw [alloc, alloc]
  split
  · split <;> rfl
  · split <;> rfl

theorem alloc_none_iff (t : CapTable Obj) (r : Rights) (o : Obj) :
    (t.alloc r o).1 = none ↔ t.placed = none := by
  cases hp : t.placed with
  | none =>
      rw [alloc_of_placed_none hp]
      exact iff_of_true rfl rfl
  | some i =>
      obtain ⟨h, t', g, halloc, -⟩ := alloc_of_placed hp r o
      rw [halloc]
      exact iff_of_false (Option.some_ne_none h) (Option.some_ne_none i)

namespace Proc

theorem recallArm_ok {p : Proc} {o : Obj} {a : SyscallArgs} {cell : Nat} (h : o.body.mem = some cell) :
    (p.recallArm o a).1.status = .ok ↔
      Answers p.table (p.heap.mems cell) (.tbRecall a.a0 a.a1 a.a2 a.a3) := by
  rw [recallArm, h, Answers]
  dsimp only
  cases hrec : ((p.heap.mems cell).tbRecall a.a0 a.a1 a.a2 a.a3).1 with
  | none => exact iff_of_false (fun hno => SysStatus.noConfusion hno) fun hno => hno.1 rfl
  | some id =>
      rw [and_iff_right (Option.some_ne_none id)]
      exact (handle_ok _).trans (not_congr (alloc_none_iff p.table Rights.READ _))

/-- When a memory call answers `Ok`. -/
theorem dispatch_ok_iff {p : Proc} {deny : Bool} {a : SyscallArgs} {cell : Nat} {op : MemSubstrate.Op}
    (h : p.memCall deny a = some (cell, op)) :
    (p.dispatch deny a).1.status = .ok ↔ Answers p.table (p.heap.mems cell) op := by
  rw [memCall] at h
  rcases p.dispatch_gate deny a with ⟨hg, -⟩ | ⟨m, i, o, hg, -, -, ho, -, hrun⟩
  · rw [hg] at h
    cases h
  · rw [hg] at h
    obtain ⟨hcell, hop⟩ := memTarget_eq_some h
    rw [hrun]
    cases m with
    | memWrite =>
        cases hop
        simp only [run, ho, objectArm, p.onMem_cell hcell]
        exact scalar_ok .noMem (by decide) _
    | memWriteProc =>
        cases hop
        simp only [run, ho, objectArm, p.onMem_cell hcell]
        exact scalar_ok .noMem (by decide) _
    | memConsolidate =>
        cases hop
        simp only [run, ho, objectArm, p.onMem_cell hcell]
        exact iff_of_true rfl trivial
    | memRead =>
        rw [memOp] at hop
        split at hop
        · next hkind =>
            cases hop
            simp only [run, ho, objectArm]
            rw [readArm, hkind]
            dsimp only
            rw [p.onMem_cell hcell]
            exact scalar_ok .badCap (by decide) _
        · cases hop
    | memRecall =>
        cases hop
        simp only [run, ho, objectArm]
        exact recallArm_ok hcell
    | objectInspect | handleDup | handleNarrow | handleTransfer | handleRevoke | handleClose
    | agentSpawn | emitExternal | budgetDelegate | chanSend | chanRecv | chanClose | blockMap
    | blockUnmap | modelInvokeBytes | modelInvoke | blockWrite | blockRead => cases hop

end Proc

/-- The methods that are made again after a failure. -/
def isRetried : Method → Bool
  | .memWrite | .memRecall | .memWriteProc => true
  | _ => false

/-- A failed call leaves the substrates alone; and from whatever table a write, a recall or
a procedural write is retried, it answers and does what it would have in the first place. -/
def Atomic (p : Proc) (deny : Bool) (a : SyscallArgs) : Prop :=
  (p.dispatch deny a).1.status ≠ .ok →
    (p.dispatch deny a).2.heap.mems = p.heap.mems ∧
    ((Method.ofNumber a.method).any isRetried = true → ∀ t : CapTable Obj,
      (Proc.dispatch ⟨t, (p.dispatch deny a).2.heap⟩ deny a).1 = (Proc.dispatch ⟨t, p.heap⟩ deny a).1 ∧
      (Proc.dispatch ⟨t, (p.dispatch deny a).2.heap⟩ deny a).2.heap.mems =
        (Proc.dispatch ⟨t, p.heap⟩ deny a).2.heap.mems)

/-! ## The retry -/

theorem run_congr {m : Method} (hm : isRetried m = true) {h h' : Heap} (hmems : h.mems = h'.mems)
    (t : CapTable Obj) (i : Nat) (a : SyscallArgs) :
    (Proc.run ⟨t, h⟩ m i a).1 = (Proc.run ⟨t, h'⟩ m i a).1 := by
  cases m with
  | memWrite | memWriteProc =>
      simp only [Proc.run, Proc.objectArm, Proc.onMem]
      rw [hmems]
      split
      · rfl
      · split <;> rfl
  | memRecall =>
      simp only [Proc.run, Proc.objectArm, Proc.recallArm]
      rw [hmems]
      split
      · rfl
      · split
        · rfl
        · split
          · rfl
          · exact congrArg SysReturn.handle (alloc_fst t Rights.READ _ _)
  | objectInspect | handleDup | handleNarrow | handleTransfer | handleRevoke | handleClose
  | agentSpawn | emitExternal | budgetDelegate | chanSend | chanRecv | chanClose | blockMap
  | blockUnmap | modelInvokeBytes | modelInvoke | blockWrite | blockRead | memRead
  | memConsolidate => cases hm

/-- What a retried method answers depends on the table and the substrates alone. -/
theorem dispatch_congr {a : SyscallArgs} (hm : (Method.ofNumber a.method).any isRetried = true)
    {h h' : Heap} (hmems : h.mems = h'.mems) (t : CapTable Obj) (deny : Bool) :
    (Proc.dispatch ⟨t, h⟩ deny a).1 = (Proc.dispatch ⟨t, h'⟩ deny a).1 ∧
      (Proc.dispatch ⟨t, h⟩ deny a).2.heap.mems = (Proc.dispatch ⟨t, h'⟩ deny a).2.heap.mems := by
  refine ⟨?_, ?_⟩
  · rw [Proc.dispatch, Proc.dispatch]
    split
    · rfl
    · split
      · rfl
      · next m hnum =>
          rw [hnum, Option.any_some] at hm
          dsimp only
          split
          · rfl
          · next i hl =>
              split
              · rfl
              · exact run_congr hm hmems t i a
  · rw [Proc.dispatch_mems, Proc.dispatch_mems, hmems]
    rfl

/-! ## When a call is atomic -/

/-- One operation of a call leaves its substrate, should the call fail, exactly when it
does not stain it. -/
theorem failed_iff (t : CapTable Obj) (s : MemSubstrate) {op : MemSubstrate.Op} (h : Dispatched op) :
    (¬ Answers t s op → s.step op = s) ↔ ¬ (Stains s op ∨ Strands t s op) := by
  cases op with
  | write op key value packed =>
      simp only [Answers, ne_eq, not_not, Strands, or_false]
      exact write_failed s op key value packed
  | writeProc op a b c =>
      simp only [Answers, ne_eq, not_not, Strands, Stains, or_false]
      exact iff_of_true (writeProc_failed s op a b c) not_false
  | readTouch id =>
      simp only [Answers, ne_eq, not_not, Strands, Stains, or_false]
      refine iff_of_true (fun hnone => ?_) not_false
      show (s.readTouch id).2 = s
      rw [readTouch] at hnone ⊢
      cases hread : s.read id with
      | none => rfl
      | some v =>
          rw [hread] at hnone
          cases hnone
  | consolidate op a b c => exact iff_of_true (fun hno => absurd trivial hno) (not_or.mpr ⟨id, id⟩)
  | tbRecall query cursor k weights =>
      obtain ⟨hnone, hfailed, hserved⟩ := tbRecall_failed s query cursor k weights
      rw [Answers, Strands]
      by_cases helig : Eligible (s.fresh cursor) query
      · -- the record was served: all that can be missing is room
        rw [and_iff_right (fun hno => hnone.mp hno helig), and_iff_right helig, not_not]
        have hstains : ¬ Stains s (.tbRecall query cursor k weights) := fun hst => hst.2.2 helig
        rw [or_iff_right hstains]
        exact ⟨fun h hfull => hserved helig (h hfull), fun hroom hfull => absurd hfull hroom⟩
      · rw [or_iff_left fun hst => helig hst.1, ← hfailed helig]
        have hanswer : ¬ ((s.tbRecall query cursor k weights).1 ≠ none ∧ t.placed ≠ none) :=
          fun hsome => hsome.1 (hnone.mpr helig)
        exact ⟨fun h => h hanswer, fun h _ => h⟩
  | seedHeldout | skillAdmit | corpusEmitOperatorTurn | corpusEmitLabeledOutcome => exact h.elim

/-- A dispatched call is atomic in the substrate exactly when it does not fail after it
wrote there. -/
theorem atomic_iff (p : Proc) (deny : Bool) (a : SyscallArgs) : Atomic p deny a ↔ ¬ Stained p deny a := by
  have hatomic : Atomic p deny a ↔
      ((p.dispatch deny a).1.status ≠ .ok → (p.dispatch deny a).2.heap.mems = p.heap.mems) := by
    constructor
    · exact fun h hfail => (h hfail).1
    · exact fun h hfail => ⟨h hfail, fun hm t => dispatch_congr hm (h hfail) t deny⟩
  rw [hatomic, Proc.dispatch_mems]
  cases hcall : p.memCall deny a with
  | none =>
      refine iff_of_true (fun _ => rfl) ?_
      rintro ⟨cell, op, hsome, -⟩
      cases hcall.symm.trans hsome
  | some e =>
      obtain ⟨cell, op⟩ := e
      have hstained : Stained p deny a ↔
          Stains (p.heap.mems cell) op ∨ Strands p.table (p.heap.mems cell) op := by
        constructor
        · rintro ⟨cell', op', hsome, hst⟩
          cases hcall.symm.trans hsome
          exact hst
        · exact fun hst => ⟨cell, op, hcall, hst⟩
      rw [hstained, ← failed_iff p.table _ (Proc.memCall_cell hcall).2, Ne, Proc.dispatch_ok_iff hcall]
      exact imp_congr_right fun _ => Function.update_eq_self_iff

/-- A home in a table of one slot, with one record in it. -/
def fullTable : Proc :=
  let home : Proc := ((⟨withCapacity 1, (World.boot fun _ : Unit => 0).heap⟩ : Proc).mint
    (Rights.WRITE.union Rights.RECALL) .memoryHome).2
  (home.dispatch false ⟨23, Handle.new 1 0, 0, 5, 7, 1⟩).2

/-- The record is served, counted and kept from the retry; its handle finds no room. -/
theorem recall_strands : ¬ Atomic fullTable false ⟨19, Handle.new 1 0, 5, 1, 0, 0⟩ := by
  intro h
  have hfail : (fullTable.dispatch false ⟨19, Handle.new 1 0, 5, 1, 0, 0⟩).1.status = .objFull := by
    decide +kernel
  have hmems := (h (by rw [hfail]; exact fun hno => SysStatus.noConfusion hno)).1
  have hcount : (fullTable.heap.mems 0).t3.records[0]?.map MemRecord.count = some 0 := by
    decide
  have hcount' : ((fullTable.dispatch false ⟨19, Handle.new 1 0, 5, 1, 0, 0⟩).2.heap.mems 0).t3.records[0]?.map
      MemRecord.count = some 1 := by
    decide +kernel
  rw [hmems, hcount] at hcount'
  cases hcount'

end Yuva.Kernel
