/-
# `Yuva.Kernel.Growth` — how far the quota bounds a substrate

The quota is meant to bound the memory an agent can make the kernel hold.  It bounds what it is
charged for: along a run none of whose calls appends unpaid (`UnpaidCall`), no substrate
ever holds more than 22 elements for each token of the quota.  A call that appends unpaid can be
made as often as the agent likes: `reads_unbounded` is an agent that reads one record over and
over.
-/
import Yuva.Kernel.Memory
import Yuva.Mem.Growth

namespace Yuva.Kernel

open Yuva.Caps CapTable Yuva.Mem Yuva.Run MemSubstrate

variable {ι : Type*} [DecidableEq ι]

/-- The call makes a substrate append what nothing pays for. -/
def UnpaidCall (w : World ι) (op : Op ι) : Prop :=
  ∃ cell o, w.memCall op = some (cell, o) ∧ Unpaid (w.heap.mems cell) o

/-- A home, and one record written to it. -/
def homeWithRecord : List (Op Unit) :=
  [.mint () (Rights.READ.union Rights.WRITE) .memoryHome,
   .dispatch () ⟨23, Handle.new 1 0, 0, 5, 7, 1⟩]

/-- In every state of a run without unpaid appends, no substrate holds more than 22 elements
for each token of the quota. -/
theorem growth_bounded (cap : ι → Nat) {ops : List (Op ι)}
    (h : Guarded World.step (fun w op => ¬ UnpaidCall w op) (World.boot cap) ops) :
    ∀ pre post, ops = pre ++ post →
      ∀ cell, size ((exec World.step (World.boot cap) pre).heap.mems cell) ≤ 22 * TOKEN_QUOTA := by
  rintro pre post rfl cell
  have hpre := (guarded_append.mp h).1
  rw [mems_boot]
  refine run_bounded (guarded_opsAt pre (homed_boot cap) ?_ cell)
  rw [guarded_iff] at hpre ⊢
  intro pre' op post' heq cell' o hcall hunpaid
  exact hpre pre' op post' heq ⟨cell', o, hcall, hunpaid⟩

/-- A home, and one record written to it: the token pays for the entry in the ledger. -/
theorem homeWithRecord_bounded :
    size ((exec World.step (World.boot fun _ => 4) homeWithRecord).heap.mems 0) ≤ 22 * TOKEN_QUOTA := by
  have hwrite : (World.step (World.boot fun _ => 4) (.mint () (Rights.READ.union Rights.WRITE) .memoryHome)).memCall
      (.dispatch () ⟨23, Handle.new 1 0, 0, 5, 7, 1⟩) = some (0, .write 0 5 7 1) := rfl
  have hpaid : Guarded World.step (fun w op => ¬ UnpaidCall w op) (World.boot fun _ => 4) homeWithRecord := by
    refine ⟨?_, ?_, trivial⟩
    · rintro ⟨cell, o, hcall, -⟩
      cases hcall
    · rintro ⟨cell, o, hcall, hunpaid⟩
      cases hwrite.symm.trans hcall
      exact absurd hunpaid.1 (by decide)
  exact growth_bounded (fun _ => 4) hpaid homeWithRecord [] rfl 0

/-! ## Reading one record over and over -/

/-- A read that reaches a substrate writes there, and nowhere else. -/
theorem Proc.dispatch_read {p : Proc} {deny : Bool} {a : SyscallArgs} {cell : Nat} {id : BitVec 64}
    (h : p.memCall deny a = some (cell, .readTouch id)) :
    (p.dispatch deny a).2 = p.setMem cell ((p.heap.mems cell).readTouch id).2 := by
  rw [memCall] at h
  rcases p.dispatch_gate deny a with ⟨hg, -⟩ | ⟨m, i, o, hg, -, -, ho, -, hrun⟩
  · rw [hg] at h
    cases h
  · rw [hg] at h
    obtain ⟨hcell, hop⟩ := memTarget_eq_some h
    rw [hrun]
    cases m with
    | memRead =>
        rw [memOp] at hop
        split at hop
        · next hkind =>
            cases hop
            simp only [run, ho, objectArm]
            rw [readArm, hkind]
            dsimp only
            rw [p.onMem_cell hcell]
        · cases hop
    | objectInspect | handleDup | handleNarrow | handleTransfer | handleRevoke | handleClose
    | agentSpawn | emitExternal | budgetDelegate | chanSend | chanRecv | chanClose | blockMap
    | blockUnmap | modelInvokeBytes | modelInvoke | blockWrite | blockRead | memWrite | memRecall
    | memConsolidate | memWriteProc => cases hop

/-- Every repetition of a read that answers adds an observation. -/
theorem reads_observed {t : ι} {a : SyscallArgs} {cell : Nat} {id : BitVec 64} (n : Nat) {w : World ι}
    (hcall : w.memCall (.dispatch t a) = some (cell, .readTouch id))
    (hread : (w.heap.mems cell).read id ≠ none) :
    ((exec World.step w (List.replicate n (.dispatch t a))).heap.mems cell).xpIds.length =
      (w.heap.mems cell).xpIds.length + n := by
  induction n generalizing w with
  | zero => rfl
  | succ n ih =>
      have hstep : w.step (.dispatch t a) =
          w.commit t ((w.proc t).setMem cell ((w.heap.mems cell).readTouch id).2) :=
        congrArg (w.commit t) (Proc.dispatch_read hcall)
      have htable : (w.step (.dispatch t a)).tables = w.tables := by
        rw [hstep]
        exact Function.update_eq_self t w.tables
      have hmem : (w.step (.dispatch t a)).heap.mems cell = ((w.heap.mems cell).readTouch id).2 := by
        rw [hstep]
        exact Function.update_self cell _ w.heap.mems
      -- the reader's table is the one it was, and what it reads still answers
      have hcall' : (w.step (.dispatch t a)).memCall (.dispatch t a) = some (cell, .readTouch id) := by
        show Proc.memCall ⟨(w.step (.dispatch t a)).tables t, _⟩ _ a = _
        rw [htable, hstep]
        exact hcall
      obtain ⟨v, hv⟩ := Option.ne_none_iff_exists'.mp hread
      have htouch : ((w.heap.mems cell).readTouch id).2.read id = some v ∧
          ((w.heap.mems cell).readTouch id).2.xpIds.length = (w.heap.mems cell).xpIds.length + 1 := by
        rw [readTouch, hv]
        dsimp only
        rw [xpRecord_eq]
        exact ⟨hv, List.length_append⟩
      rw [List.replicate_succ, exec_cons, ih hcall', hmem, htouch.2, Nat.add_assoc, Nat.add_comm 1 n]
      rw [hmem, htouch.1]
      exact Option.some_ne_none v

/-- The method that reads record 0. -/
def readAgain : Op Unit := .dispatch () ⟨24, Handle.new 1 0, 0, 0, 0, 0⟩

theorem readAgain_reads : (exec World.step (World.boot fun _ => 4) homeWithRecord).memCall readAgain =
    some (0, .readTouch 0) := rfl

/-- No multiple of the quota bounds what the reads of one agent leave. -/
theorem reads_unbounded : ¬ ∃ c, ∀ ops : List (Op Unit),
    (∀ op ∈ ops, (∃ t rights what, op = .mint t rights what) ∨ ∃ t a, op = .dispatch t a) →
    ∀ cell, size ((exec World.step (World.boot fun _ => 4) ops).heap.mems cell) ≤ c * TOKEN_QUOTA := by
  rintro ⟨c, h⟩
  have hread : ((exec World.step (World.boot fun _ => 4) homeWithRecord).heap.mems 0).read 0 ≠ none := by
    decide
  have hbound := h (homeWithRecord ++ List.replicate (c * TOKEN_QUOTA + 1) readAgain) ?_ 0
  · have hlog := reads_observed (c * TOKEN_QUOTA + 1) readAgain_reads hread
    rw [exec_append, size] at hbound
    rw [readAgain] at hbound
    omega
  · intro op hop
    rcases List.mem_append.mp hop with hop | hop
    · rcases List.mem_cons.mp hop with rfl | hop
      · exact .inl ⟨_, _, _, rfl⟩
      · exact .inr ⟨_, _, List.mem_singleton.mp hop⟩
    · exact .inr ⟨_, _, List.eq_of_mem_replicate hop⟩

end Yuva.Kernel
