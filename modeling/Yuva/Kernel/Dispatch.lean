/-
# `Yuva.Kernel.Dispatch` — the numbered, capability-checked dispatcher

`tb-hal/src/caps.rs`: kernel objects, the closed method space with the right each
method requires, `dispatch` with every arm, and the kernel-side entry points beside it
(the byte facade of a model session, and the evaluator harness).

An object lives behind an `Rc`; its allocation is `addr`, and the bodies objects share
or own (channel cores, substrates, blocks) are cells of a `Heap`.  A handle table and
the heap are what one call sees, a `Proc`.  The channel arms are the calls of
`Yuva.Ipc.Channel`, which resolve and gate the handle as `dispatch` does.
-/
import Yuva.Ipc.Conserve
import Yuva.Mem.Organ
import Yuva.Blocks.Record
import Yuva.Kernel.Session

namespace Yuva.Kernel

open Yuva.Caps CapTable Yuva.Ipc Yuva.Mem Yuva.Blocks

/-! ## Objects -/

/-- The kinds, in the order of their tags. -/
inductive ObjKind where
  | agent | modelSession | memoryHome | memoryRecord | budget | channel | skill | nameSpace
  | generic | block
  deriving DecidableEq, Repr

def ObjKind.tag : ObjKind → BitVec 64
  | .agent => 0
  | .modelSession => 1
  | .memoryHome => 2
  | .memoryRecord => 3
  | .budget => 4
  | .channel => 5
  | .skill => 6
  | .nameSpace => 7
  | .generic => 8
  | .block => 9

/-- An object's payload, its endpoint apart. -/
structure Body where
  addr : Nat
  kind : ObjKind
  mem : Option Nat
  scalar : BitVec 64
  block : Option Nat
  session : Option ModelSession

abbrev Obj := Object Nat Body

/-- The cells behind the objects; `next` is the next address to be handed out. -/
structure Heap where
  chans : Nat → Channel Obj
  mems : Nat → MemSubstrate
  blocks : Nat → Block
  next : Nat

/-- One principal's table, and the heap. -/
structure Proc where
  table : CapTable Obj
  heap : Heap

namespace Proc

def view (p : Proc) : View Nat Body := ⟨p.table, p.heap.chans⟩

def setView (p : Proc) (v : View Nat Body) : Proc := ⟨v.table, { p.heap with chans := v.chans }⟩

def setMem (p : Proc) (cell : Nat) (s : MemSubstrate) : Proc :=
  { p with heap := { p.heap with mems := Function.update p.heap.mems cell s } }

def setBlock (p : Proc) (cell : Nat) (b : Block) : Proc :=
  { p with heap := { p.heap with blocks := Function.update p.heap.blocks cell b } }

end Proc

/-! ## Methods -/

inductive Method where
  | objectInspect | handleDup | handleNarrow | handleTransfer | handleRevoke | handleClose
  | agentSpawn | modelInvoke | memWriteProc | memRecall | memConsolidate | emitExternal
  | budgetDelegate | memWrite | memRead | chanSend | chanRecv | chanClose | blockMap | blockUnmap
  | blockWrite | blockRead | modelInvokeBytes
  deriving DecidableEq, Repr

/-- The closed, sparse method space. -/
def Method.ofNumber (n : BitVec 32) : Option Method :=
  match n.toNat with
  | 0 => some .objectInspect
  | 1 => some .handleDup
  | 2 => some .handleNarrow
  | 3 => some .handleTransfer
  | 4 => some .handleRevoke
  | 5 => some .handleClose
  | 16 => some .agentSpawn
  | 17 => some .modelInvoke
  | 18 => some .memWriteProc
  | 19 => some .memRecall
  | 20 => some .memConsolidate
  | 21 => some .emitExternal
  | 22 => some .budgetDelegate
  | 23 => some .memWrite
  | 24 => some .memRead
  | 25 => some .chanSend
  | 26 => some .chanRecv
  | 27 => some .chanClose
  | 28 => some .blockMap
  | 29 => some .blockUnmap
  | 30 => some .blockWrite
  | 31 => some .blockRead
  | 32 => some .modelInvokeBytes
  | _ => none

def requiredRight : Method → Rights
  | .objectInspect => Rights.READ
  | .handleDup => Rights.DUP
  | .handleNarrow => Rights.NONE
  | .handleTransfer => Rights.TRANSFER
  | .handleRevoke => Rights.REVOKE
  | .handleClose => Rights.NONE
  | .agentSpawn => Rights.SPAWN_AGENT
  | .modelInvoke => Rights.INVOKE_MODEL
  | .memWriteProc => Rights.WRITE_PROCEDURAL
  | .memRecall => Rights.RECALL
  | .memConsolidate => Rights.CONSOLIDATE
  | .memWrite => Rights.WRITE
  | .memRead => Rights.READ
  | .chanSend => Rights.WRITE
  | .chanRecv => Rights.READ
  | .chanClose => Rights.NONE
  | .blockMap => Rights.READ
  | .blockUnmap => Rights.REVOKE
  | .blockWrite => Rights.WRITE
  | .blockRead => Rights.READ
  | .modelInvokeBytes => Rights.INVOKE_MODEL
  | .emitExternal => Rights.EMIT_EXTERNAL
  | .budgetDelegate => Rights.DELEGATE_BUDGET

/-- The families an agent organ reaches for. -/
def isCognitiveFamily : Method → Bool
  | .memRecall | .memWriteProc | .modelInvoke | .modelInvokeBytes => true
  | _ => false

/-! ## Dispatch -/

structure SyscallArgs where
  method : BitVec 32
  handle : Handle
  a0 : BitVec 64
  a1 : BitVec 64
  a2 : BitVec 64
  a3 : BitVec 64
  deriving DecidableEq, Repr

structure SysReturn where
  status : SysStatus
  value : BitVec 64
  deriving DecidableEq, Repr

namespace SysReturn

def ok (value : BitVec 64) : SysReturn := ⟨.ok, value⟩

def err (status : SysStatus) : SysReturn := ⟨status, 0⟩

/-- A fresh handle's raw word, or the table was full. -/
def handle : Option Handle → SysReturn
  | some h => ok h.raw
  | none => err .objFull

/-- A scalar, or the status of its absence. -/
def scalar (missing : SysStatus) : Option (BitVec 64) → SysReturn
  | some v => ok v
  | none => err missing

end SysReturn

namespace Proc

/-- The substrate behind an object, handed to `f`. -/
def onMem (p : Proc) (o : Obj) (f : MemSubstrate → SysReturn × MemSubstrate) : SysReturn × Proc :=
  match o.body.mem with
  | none => (.err .badCap, p)
  | some cell =>
      let (r, s) := f (p.heap.mems cell)
      (r, p.setMem cell s)

/-- The live block behind an object, handed to `f`. -/
def onBlock (p : Proc) (o : Obj) (f : Block → SysReturn × Block) : SysReturn × Proc :=
  match o.body.block with
  | none => (.err .badCap, p)
  | some cell =>
      if (p.heap.blocks cell).isDead then (.err .stale, p)
      else
        let (r, b) := f (p.heap.blocks cell)
        (r, p.setBlock cell b)

/-- `mint_record`: a working copy of a recalled record, at a fresh address. -/
def mintRecord (p : Proc) (scalar : BitVec 64) : Option Handle × Proc :=
  let o : Obj := ⟨none, ⟨p.heap.next, .memoryRecord, none, scalar, none, none⟩⟩
  let (h, t) := p.table.alloc Rights.READ o
  (h, ⟨t, { p.heap with next := p.heap.next + 1 }⟩)

/-- Recall, then mint the working copy of what was found. -/
def recallArm (p : Proc) (o : Obj) (a : SyscallArgs) : SysReturn × Proc :=
  match o.body.mem with
  | none => (.err .badCap, p)
  | some cell =>
      let (rec, s) := (p.heap.mems cell).tbRecall a.a0 a.a1 a.a2 a.a3
      let p := p.setMem cell s
      match rec with
      | none => (.err .badCap, p)
      | some id =>
          let (h, p) := p.mintRecord id
          (.handle h, p)

/-- A home is read through its substrate, a working copy is its scalar. -/
def readArm (p : Proc) (o : Obj) (a : SyscallArgs) : SysReturn × Proc :=
  match o.body.kind with
  | .memoryHome => p.onMem o fun s =>
      let (v, s) := s.readTouch a.a0
      (.scalar .badCap v, s)
  | .memoryRecord => (.ok o.body.scalar, p)
  | _ => (.err .badCap, p)

/-- A channel call: the status, and on success the moved handle. -/
def chanArm (p : Proc) (k : Call) : SysReturn × Proc :=
  let (r, v) := p.view.call k
  (if r.status = .ok then .ok r.moved else .err r.status, p.setView v)

/-- The arms that read the object behind the resolved slot. -/
def objectArm (p : Proc) (m : Method) (o : Obj) (a : SyscallArgs) : SysReturn × Proc :=
  match m with
  | .memWrite => p.onMem o fun s =>
      let (v, s) := s.write a.a0 a.a1 a.a2 a.a3
      (.scalar .noMem v, s)
  | .memWriteProc => p.onMem o fun s =>
      let (v, s) := s.writeProc a.a0 a.a1 a.a2 a.a3
      (.scalar .noMem v, s)
  | .memRead => p.readArm o a
  | .memRecall => p.recallArm o a
  | .memConsolidate => p.onMem o fun s =>
      let (n, s) := s.consolidate a.a0 a.a1 a.a2 a.a3
      (.ok n, s)
  | .blockWrite => p.onBlock o fun b =>
      let (v, b) := b.casWrite a.a0 a.a1 a.a2
      (.scalar .wouldBlock (v.map (BitVec.ofNat 64)), b)
  | .blockRead => p.onBlock o fun b => (.scalar .badCap (b.readLatest a.a0), b)
  | .modelInvoke =>
      match o.body.session with
      | some sess => (.ok (sess.invoke a.a0).token, p)
      | none => (.err .badCap, p)
  | _ => (.ok 0, p)

/-- The arm of a method whose handle resolved to slot `i` with the right it requires. -/
def run (p : Proc) (m : Method) (i : Nat) (a : SyscallArgs) : SysReturn × Proc :=
  match m with
  | .objectInspect => (.ok (((p.table.objectAt i).map fun o => o.body.kind.tag).getD 0), p)
  | .handleDup =>
      let (h, t) := p.table.dup a.handle
      (.handle h, { p with table := t })
  | .handleNarrow =>
      let (h, t) := p.table.narrow a.handle (Rights.fromBits (a.a0.setWidth 32))
      (.handle h, { p with table := t })
  | .handleRevoke | .handleClose =>
      let (s, t) := p.table.revoke a.handle
      (⟨s, 0⟩, { p with table := t })
  | .chanSend => p.chanArm (.send a.handle a.a0 a.a1)
  | .chanRecv => p.chanArm (.recv a.handle)
  | .chanClose => p.chanArm (.close a.handle)
  -- rights-checked stubs: their bodies need more than a table, or come later
  | .handleTransfer | .agentSpawn | .emitExternal | .budgetDelegate | .blockMap | .blockUnmap
  | .modelInvokeBytes => (.ok 0, p)
  | m =>
      match p.table.objectAt i with
      | none => (.err .stale, p)
      | some o => p.objectArm m o a

/-- `deny` is the cognitive latch. -/
def dispatch (p : Proc) (deny : Bool) (a : SyscallArgs) : SysReturn × Proc :=
  if deny && (Method.ofNumber a.method).any isCognitiveFamily then (.err .denied, p)
  else
    match Method.ofNumber a.method with
    | none => (.err .badMethod, p)
    | some m =>
        match p.table.live a.handle with
        | .error e => (.err e, p)
        | .ok i =>
            if !(p.table.rightsAt i).contains (requiredRight m) then (.err .denied, p)
            else p.run m i a

end Proc

/-! ## The kernel-side entry points -/

/-- The body of `M_MODEL_INVOKE_BYTES`, reached beside `dispatch`: the status, the
backend's answer when it ran, and the caller's buffer. -/
def modelInvokeBytes (t : CapTable Obj) (h : Handle) (prompt respOut : List UInt8) :
    SysStatus × Option (Except InferError (Nat × StopReason)) × List UInt8 :=
  match t.live h with
  | .error e => (e, none, respOut)
  | .ok i =>
      if !(t.rightsAt i).contains Rights.INVOKE_MODEL then (.denied, none, respOut)
      else
        match t.objectAt i with
        | none => (.stale, none, respOut)
        | some o =>
            match o.body.session with
            | none => (.badCap, none, respOut)
            | some sess =>
                let (r, respOut) := sess.invokeBytes prompt respOut
                (.ok, some r, respOut)

/-- The cell of the substrate a handle reaches. -/
def memCell (t : CapTable Obj) (h : Handle) : Option Nat :=
  match t.live h with
  | .error _ => none
  | .ok i => (t.objectAt i).bind fun o => o.body.mem

namespace Proc

def skillGetOf (p : Proc) (h : Handle) (id : BitVec 64) : Option (BitVec 64 × SkillTier) :=
  (memCell p.table h).bind fun cell => (p.heap.mems cell).skillGet id

/-- The score of a body in the evaluator's own substrate. -/
def scoreOf (heap : Heap) (evalTbl : CapTable Obj) (h : Handle) (body : BitVec 64) : Option (BitVec 32) :=
  (memCell evalTbl h).map fun cell => (heap.mems cell).scoreCandidate body

def skillAdmitOf (p : Proc) (h : Handle) (id : BitVec 64) (score : BitVec 32) : Bool × Proc :=
  match memCell p.table h with
  | none => (false, p)
  | some cell =>
      let (admitted, s) := (p.heap.mems cell).skillAdmit id score
      (admitted, p.setMem cell s)

def evalSeedHeldout (p : Proc) (evalHome : Handle) (target base n : BitVec 64) : Bool × Proc :=
  match memCell p.table evalHome with
  | none => (false, p)
  | some cell => (true, p.setMem cell ((p.heap.mems cell).seedHeldout target base n))

/-- Score the proposed skill in the evaluator's domain, admit on strict improvement. -/
def harnessAdmit (p : Proc) (skillHome : Handle) (skillId : BitVec 64) (evalTbl : CapTable Obj)
    (evalHome : Handle) : (Bool × BitVec 32) × Proc :=
  match p.skillGetOf skillHome skillId with
  | none => ((false, 0), p)
  | some (body, _) =>
      match scoreOf p.heap evalTbl evalHome body with
      | none => ((false, 0), p)
      | some score =>
          let (admitted, p) := p.skillAdmitOf skillHome skillId score
          ((admitted, score), p)

def skillHighImpactOf (p : Proc) (h : Handle) (id : BitVec 64) : Option Bool :=
  (memCell p.table h).bind fun cell => (p.heap.mems cell).skillIsHighImpact id

/-- No handle carries no approval; a dead one is an error. -/
def carriesApproval (t : CapTable Obj) (approval : Handle) : Except SysStatus Bool :=
  if approval = Handle.NULL then .ok false
  else
    match t.live approval with
    | .error e => .error e
    | .ok i => .ok ((t.rightsAt i).contains Rights.APPROVE_HIGH_IMPACT)

/-- The gate a high-impact skill passes before it is admitted. -/
def harnessMerge (p : Proc) (skillHome : Handle) (skillId : BitVec 64) (evalTbl : CapTable Obj)
    (evalHome : Handle) (approvalTbl : CapTable Obj) (approval : Handle) : (SysStatus × Bool) × Proc :=
  let merged : (SysStatus × Bool) × Proc :=
    let ((admitted, _), p) := p.harnessAdmit skillHome skillId evalTbl evalHome
    ((.ok, admitted), p)
  match p.skillHighImpactOf skillHome skillId with
  | none => ((.badCap, false), p)
  | some false => merged
  | some true =>
      match carriesApproval approvalTbl approval with
      | .ok true => merged
      | .ok false => ((.denied, false), p)
      | .error e => ((e, false), p)

/-- The evaluator is the partition the rotation counter selects. -/
def harnessAdmitRotating (p : Proc) (skillHome : Handle) (skillId : BitVec 64)
    (evalTbl : CapTable Obj) (evalHomes : List Handle) (rotation : BitVec 64) :
    (Bool × Nat × BitVec 32) × Proc :=
  match evalHomes with
  | [] => ((false, 0, 0), p)
  | _ :: _ =>
      let idx := rotation.toNat % evalHomes.length
      let ((admitted, score), p) := p.harnessAdmit skillHome skillId evalTbl
        (evalHomes.getD idx Handle.NULL)
      ((admitted, idx, score), p)

end Proc

end Yuva.Kernel
