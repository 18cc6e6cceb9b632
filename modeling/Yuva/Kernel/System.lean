/-
# `Yuva.Kernel.System` — the kernel as one machine

Every principal's table over one heap, the cognitive latch, and the calls that reach
them: `dispatch`, the byte facades, the harness, and the kernel's own minting.  What one
call can do to a `Proc` is said once, in `Effect`, and every invariant is derived from
it.

Rust's borrow rules keep the table a harness call writes apart from the evaluator's
and the approver's; nothing here depends on it.
-/
import Yuva.Kernel.Dispatch

namespace Yuva.Kernel

open Yuva.Caps CapTable Yuva.Ipc Yuva.Mem Yuva.Blocks Yuva.Run

variable {ι : Type*} [DecidableEq ι]

/-! ## Minting -/

/-- What a minted object carries: the `mint_*` functions. -/
inductive Payload where
  | identity (kind : ObjKind)
  | memoryHome
  | record (scalar : BitVec 64)
  | endpoint (chan : Nat) (side : Side)
  | block (cell : Nat)
  | session (sess : ModelSession)

def Payload.object (addr : Nat) : Payload → Obj
  | .identity kind => ⟨none, ⟨addr, kind, none, 0, none, none⟩⟩
  | .memoryHome => ⟨none, ⟨addr, .memoryHome, some addr, 0, none, none⟩⟩
  | .record scalar => ⟨none, ⟨addr, .memoryRecord, none, scalar, none, none⟩⟩
  | .endpoint chan side => ⟨some (chan, side), ⟨addr, .channel, none, 0, none, none⟩⟩
  | .block cell => ⟨none, ⟨addr, .block, none, 0, some cell, none⟩⟩
  | .session sess => ⟨none, ⟨addr, .modelSession, none, 0, none, some sess⟩⟩

/-- A new object at a fresh address, its own substrate empty. -/
def Proc.mint (p : Proc) (rights : Rights) (what : Payload) : Option Handle × Proc :=
  let addr := p.heap.next
  let (h, t) := p.table.alloc rights (what.object addr)
  (h, ⟨t, { p.heap with mems := Function.update p.heap.mems addr .new, next := addr + 1 }⟩)

/-! ## The machine -/

structure World (ι : Type*) where
  tables : ι → CapTable Obj
  heap : Heap
  cognitiveDeny : Bool

/-- Empty tables of the given capacities, nothing allocated, the latch down. -/
def World.boot (cap : ι → Nat) : World ι where
  tables t := withCapacity (cap t)
  heap := ⟨fun _ => Channel.create 0, fun _ => .new, fun _ => Block.create [], 0⟩
  cognitiveDeny := false

inductive Op (ι : Type*) where
  | dispatch (t : ι) (a : SyscallArgs)
  | chanCall (t : ι) (k : Call)
  | modelInvokeBytes (t : ι) (h : Handle) (prompt respOut : List UInt8)
  | harnessAdmit (t : ι) (skillHome : Handle) (skillId : BitVec 64) (evalTbl : ι) (evalHome : Handle)
  | harnessMerge (t : ι) (skillHome : Handle) (skillId : BitVec 64) (evalTbl : ι) (evalHome : Handle)
      (approvalTbl : ι) (approval : Handle)
  | harnessAdmitRotating (t : ι) (skillHome : Handle) (skillId : BitVec 64) (evalTbl : ι)
      (evalHomes : List Handle) (rotation : BitVec 64)
  | evalSeedHeldout (t : ι) (evalHome : Handle) (target base n : BitVec 64)
  | mint (t : ι) (rights : Rights) (what : Payload)
  | createChannel (bound : Nat)
  | createBlock (frames : List (BitVec 64))
  | killBlock (cell : Nat)
  | setCognitiveDeny (v : Bool)

namespace World

/-- What principal `t` reaches. -/
def proc (w : World ι) (t : ι) : Proc := ⟨w.tables t, w.heap⟩

def commit (w : World ι) (t : ι) (p : Proc) : World ι :=
  { w with tables := Function.update w.tables t p.table, heap := p.heap }

theorem commit_proc (w : World ι) (t : ι) : w.commit t (w.proc t) = w := by
  show World.mk (Function.update w.tables t (w.tables t)) w.heap w.cognitiveDeny = w
  rw [Function.update_eq_self]

/-- The principal whose table a call works on, and what it makes of it. -/
def onProc (w : World ι) : Op ι → Option (ι × Proc)
  | .dispatch t a => some (t, ((w.proc t).dispatch w.cognitiveDeny a).2)
  | .chanCall t k => some (t, ((w.proc t).chanArm k).2)
  | .harnessAdmit t home id et eh => some (t, ((w.proc t).harnessAdmit home id (w.tables et) eh).2)
  | .harnessMerge t home id et eh at' ah =>
      some (t, ((w.proc t).harnessMerge home id (w.tables et) eh (w.tables at') ah).2)
  | .harnessAdmitRotating t home id et ehs rotation =>
      some (t, ((w.proc t).harnessAdmitRotating home id (w.tables et) ehs rotation).2)
  | .evalSeedHeldout t eh target base n => some (t, ((w.proc t).evalSeedHeldout eh target base n).2)
  | .mint t rights what => some (t, ((w.proc t).mint rights what).2)
  | _ => none

def step (w : World ι) (op : Op ι) : World ι :=
  match w.onProc op with
  | some (t, p) => w.commit t p
  | none =>
      match op with
      | .createChannel bound =>
          { w with heap :=
            { w.heap with
              chans := Function.update w.heap.chans w.heap.next (Channel.create bound)
              next := w.heap.next + 1 } }
      | .createBlock frames =>
          { w with heap :=
            { w.heap with
              blocks := Function.update w.heap.blocks w.heap.next (Block.create frames)
              next := w.heap.next + 1 } }
      | .killBlock cell =>
          { w with heap :=
            { w.heap with blocks := Function.update w.heap.blocks cell (w.heap.blocks cell).kill } }
      | .setCognitiveDeny v => { w with cognitiveDeny := v }
      -- the byte facade writes the caller's buffer only
      | _ => w

end World

/-! ## What a dispatched call can do -/

/-- The five operations on a substrate that have a method number. -/
def Dispatched : MemSubstrate.Op → Prop
  | .write .. | .readTouch .. | .tbRecall .. | .consolidate .. | .writeProc .. => True
  | _ => False

/-- The arm of method `m` at slot `i`. -/
inductive Effect (p : Proc) (m : Method) (i : Nat) : Proc → Prop
  | same : Effect p m i p
  | dup (o : Obj) : m = .handleDup → p.table.objectAt i = some o →
      Effect p m i { p with table := (p.table.alloc (p.table.rightsAt i) o).2 }
  | narrow (o : Obj) (mask : Rights) : m = .handleNarrow → p.table.objectAt i = some o →
      Effect p m i { p with table := (p.table.alloc ((p.table.rightsAt i).intersect mask) o).2 }
  | vacate (h : Handle) : p.table.live h = .ok i → Effect p m i { p with table := p.table.freeSlot i }
  | mem (cell : Nat) (op : MemSubstrate.Op) : Dispatched op →
      Effect p m i (p.setMem cell ((p.heap.mems cell).step op))
  | recalled (cell : Nat) (op : MemSubstrate.Op) (scalar : BitVec 64) : Dispatched op →
      Effect p m i ((p.setMem cell ((p.heap.mems cell).step op)).mintRecord scalar).2
  | chan (k : Call) : Effect p m i (p.setView (p.view.call k).2)
  | block (cell : Nat) (b : Block) : Effect p m i (p.setBlock cell b)

namespace Proc

theorem onMem_effect (p : Proc) (m : Method) (i : Nat) (o : Obj)
    (f : MemSubstrate → SysReturn × MemSubstrate) (op : MemSubstrate.Op) (hop : Dispatched op)
    (hf : ∀ s, (f s).2 = s.step op) : Effect p m i (p.onMem o f).2 := by
  rw [onMem]
  split
  · exact .same
  · next cell _ =>
      dsimp only
      rw [hf]
      exact .mem cell op hop

theorem onBlock_effect (p : Proc) (m : Method) (i : Nat) (o : Obj) (f : Block → SysReturn × Block) :
    Effect p m i (p.onBlock o f).2 := by
  rw [onBlock]
  split
  · exact .same
  · next cell _ =>
      split
      · exact .same
      · exact .block cell _

theorem recallArm_effect (p : Proc) (m : Method) (i : Nat) (o : Obj) (a : SyscallArgs) :
    Effect p m i (p.recallArm o a).2 := by
  rw [recallArm]
  split
  · exact .same
  · next cell _ =>
      dsimp only
      split
      · exact .mem cell (.tbRecall a.a0 a.a1 a.a2 a.a3) trivial
      · next id _ => exact .recalled cell (.tbRecall a.a0 a.a1 a.a2 a.a3) id trivial

theorem readArm_effect (p : Proc) (m : Method) (i : Nat) (o : Obj) (a : SyscallArgs) :
    Effect p m i (p.readArm o a).2 := by
  rw [readArm]
  split
  · exact onMem_effect p m i o _ (.readTouch a.a0) trivial fun _ => rfl
  · exact .same
  · exact .same

theorem objectArm_effect (p : Proc) (m : Method) (i : Nat) (o : Obj) (a : SyscallArgs) :
    Effect p m i (p.objectArm m o a).2 := by
  unfold objectArm
  split
  · exact onMem_effect p _ i o _ (.write a.a0 a.a1 a.a2 a.a3) trivial fun _ => rfl
  · exact onMem_effect p _ i o _ (.writeProc a.a0 a.a1 a.a2 a.a3) trivial fun _ => rfl
  · exact readArm_effect p _ i o a
  · exact recallArm_effect p _ i o a
  · exact onMem_effect p _ i o _ (.consolidate a.a0 a.a1 a.a2 a.a3) trivial fun _ => rfl
  · exact onBlock_effect p _ i o _
  · exact onBlock_effect p _ i o _
  · split <;> exact .same
  · exact .same

theorem run_effect {p : Proc} {i : Nat} {a : SyscallArgs} (hl : p.table.live a.handle = .ok i)
    (m : Method) : Effect p m i (p.run m i a).2 := by
  obtain ⟨-, o, -, -, ho, -⟩ := objectAt_of_live hl
  cases m with
  | handleDup =>
      rw [run, dup, hl]
      dsimp only
      rw [ho]
      exact .dup o rfl ho
  | handleNarrow =>
      rw [run, narrow, hl]
      dsimp only
      rw [ho]
      exact .narrow o _ rfl ho
  | handleRevoke | handleClose =>
      rw [run, revoke, hl]
      exact .vacate a.handle hl
  | chanSend => exact .chan (.send a.handle a.a0 a.a1)
  | chanRecv => exact .chan (.recv a.handle)
  | chanClose => exact .chan (.close a.handle)
  | objectInspect | handleTransfer | agentSpawn | emitExternal | budgetDelegate | blockMap
  | blockUnmap | modelInvokeBytes => exact .same
  | modelInvoke | memWriteProc | memRecall | memConsolidate | memWrite | memRead | blockWrite
  | blockRead =>
      unfold run
      dsimp only
      rw [ho]
      exact objectArm_effect p _ i o a

/-- Dispatch refuses and changes nothing, or runs the arm of a method whose right the
resolved handle carries. -/
theorem dispatch_effect (p : Proc) (deny : Bool) (a : SyscallArgs) :
    (p.dispatch deny a).2 = p ∨ ∃ m i, Method.ofNumber a.method = some m ∧
      p.table.live a.handle = .ok i ∧ (p.table.rightsAt i).contains (requiredRight m) = true ∧
      Effect p m i (p.dispatch deny a).2 ∧ (p.dispatch deny a).1 = (p.run m i a).1 := by
  rw [dispatch]
  split
  · exact .inl rfl
  · split
    · exact .inl rfl
    · next m hm =>
        split
        · exact .inl rfl
        · next i hl =>
            split
            · exact .inl rfl
            · next hright =>
                exact .inr ⟨m, i, hm, hl, by simpa using hright, run_effect hl m, rfl⟩

end Proc

end Yuva.Kernel
