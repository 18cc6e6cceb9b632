/-
# `Yuva.El2.Rungs` — the cells of the other self-tests

Beside the kernel guest the monitor serves six smaller self-tests: the bootstrap round trip, the
demand-faulted stage 2, the exit table, trap-and-emulate, the nested guest, the virtual
interrupt and the two-slot scheduler.  Each keeps a block of cells at EL2, arms itself by one
hypercall and reports by another: a code, zero for a pass, and a word beside it.

    window      arms   reports   the word
    bootstrap      0         1   the magic
    stage 2        2         3   the address served
    exits          4         5   the mask of exits served
    trap           6         7   the mask of traps served
    nested         8         9   the magic
    interrupt     10        11   the magic
    scheduler     12        13   the witness of its head

`done` of a block is the verdict of its reporting hypercall (`el2/mod.rs`, over `stage2.rs`,
`exits.rs`, `el2mmio.rs`, `el2vgic.rs`, `tpsched_hal.rs` and `tb-encode/src/tpsched.rs`).
-/
import Yuva.El2.Trap
import Yuva.Lib.Machine
import Yuva.Mem.Ledger

namespace Yuva.El2

open Yuva.Bytes
open Yuva.Machine (satU)

/-- The code and the word beside it, as `el2_return_to_kernel` takes them. -/
structure Report where
  code : Reg
  word : Reg
deriving DecidableEq

/-! ## System registers -/

def HCR_RW : Reg := 1 <<< 31
def HCR_VM : Reg := 1 <<< 0
def HCR_IMO : Reg := 1 <<< 4
def HCR_TWI : Reg := 1 <<< 13
def HCR_TWE : Reg := 1 <<< 14
def HCR_TVM : Reg := 1 <<< 26
def CPTR_EL2_BASELINE : Reg := 0x33FF
def CPTR_EL2_TFP : Reg := 1 <<< 10

/-- The system registers as the monitor last wrote them. -/
structure Regs where
  hcrEl2 : Reg
  vtcrEl2 : Reg
  vttbrEl2 : Reg
  cptrEl2 : Reg
  sctlrEl1 : Reg
  spEl1 : Reg
  esrEl1 : Reg
  elrEl1 : Reg
  spsrEl1 : Reg

namespace Regs

/-- A stage-2 root and the bits that go with it. -/
def armStage2 (r : Regs) (hcr vtcr vttbr : Reg) : Regs :=
  { r with hcrEl2 := hcr, vtcrEl2 := vtcr, vttbrEl2 := vttbr }

/-- The boot baseline: no second stage, no root. -/
def disarmStage2 (r : Regs) : Regs := { r with hcrEl2 := HCR_RW, vttbrEl2 := 0 }

def armExits (r : Regs) : Regs :=
  { r with hcrEl2 := HCR_RW ||| HCR_TWI ||| HCR_TWE, cptrEl2 := CPTR_EL2_BASELINE ||| CPTR_EL2_TFP }

def disarmExits (r : Regs) : Regs := { r with hcrEl2 := HCR_RW, cptrEl2 := CPTR_EL2_BASELINE }

def armVgic (r : Regs) : Regs := { r with hcrEl2 := HCR_RW ||| HCR_IMO ||| HCR_TWI }

def disarmVgic (r : Regs) : Regs := { r with hcrEl2 := HCR_RW }

/-- The timer window, over a stage 2 or without one. -/
def armCnthp (r : Regs) (stage2Vm : Bool) : Regs :=
  { r with hcrEl2 := if stage2Vm then HCR_RW ||| HCR_IMO ||| HCR_VM else HCR_RW ||| HCR_IMO }

end Regs

/-! ## Bootstrap -/

def GUEST_MAGIC : Reg := 0xE12
def FAIL_BAD_MAGIC : Reg := 0x00000E1200000001
def FAIL_BAD_IMM : Reg := 0x00000E1200000002
def FAIL_BAD_EC : Reg := 0x00000E1200000003

def guestDone (magic : Reg) : Report := ⟨if magic = GUEST_MAGIC then 0 else FAIL_BAD_MAGIC, magic⟩

/-! ## Stage 2 and the nested guest -/

def STAGE2_GUEST_MAGIC : Reg := 0xACE
def FAIL_S2_BAD_MAGIC : Reg := 0x00000AC100000006
def FAIL_S2_NOT_SERVED : Reg := 0x00000AC100000007

def NESTED_GUEST_MAGIC : Reg := 0x2E5
def NESTED_SENTINEL : Reg := 0xB22B
def FAIL_NG_READBACK : Reg := 0x000002E500000003
def FAIL_NG_BAD_MAGIC : Reg := 0x000002E500000004

/-- `S2_CTX`. -/
structure S2Ctx where
  root : Reg
  demand : Reg
  expectIpa : Reg
  served : Reg

namespace S2Ctx

def set (root demand expectIpa : Reg) : S2Ctx := ⟨root, demand, expectIpa, 0⟩

def done (c : S2Ctx) (magic : Reg) : Report :=
  ⟨if magic ≠ STAGE2_GUEST_MAGIC then FAIL_S2_BAD_MAGIC
    else if c.served ≠ c.expectIpa then FAIL_S2_NOT_SERVED else 0, c.served⟩

end S2Ctx

/-- The nested guest: the monitor looks at the demand frame itself. -/
def nestedDone (demandWord magic : Reg) : Report :=
  ⟨if demandWord ≠ NESTED_SENTINEL then FAIL_NG_READBACK
    else if magic ≠ NESTED_GUEST_MAGIC then FAIL_NG_BAD_MAGIC else 0, magic⟩

/-! ## Exits -/

def EXIT_WFX_BIT : Reg := 1 <<< 0
def EXIT_UNDEF_BIT : Reg := 1 <<< 1
def UNDEF_GUEST_MAGIC : Reg := 0xE22
def FAIL_EXITS_WFX_MISS : Reg := 0x00000E2200000001
def FAIL_EXITS_UNDEF_MISS : Reg := 0x00000E2200000002
def FAIL_EXITS_BAD_MAGIC : Reg := 0x00000E2200000003

/-- `EXITS_CTX`. -/
structure ExitsCtx where
  armed : Bool
  served : Reg

namespace ExitsCtx

def arm : ExitsCtx := ⟨true, 0⟩
def setExitServed (c : ExitsCtx) (bit : Reg) : ExitsCtx := { c with served := c.served ||| bit }

def done (c : ExitsCtx) (magic : Reg) : Report :=
  ⟨if c.served &&& EXIT_WFX_BIT = 0 then FAIL_EXITS_WFX_MISS
    else if c.served &&& EXIT_UNDEF_BIT = 0 then FAIL_EXITS_UNDEF_MISS
    else if magic ≠ UNDEF_GUEST_MAGIC then FAIL_EXITS_BAD_MAGIC else 0, c.served⟩

end ExitsCtx

/-! ## Trap and emulate -/

def TRAP_SYSREG_BIT : Reg := 1 <<< 0
def TRAP_MMIO_WR_BIT : Reg := 1 <<< 1
def TRAP_MMIO_RD_BIT : Reg := 1 <<< 2
def SYSREG_EMU_VAL : Reg := 0x5103
def MMIO_VAL : Reg := 0x0D51
def TRAP_GUEST_MAGIC : Reg := 0xD23
def FAIL_TRAP_SYSREG_MISS : Reg := 0x00000D2300000001
def FAIL_TRAP_MMIO_WR_MISS : Reg := 0x00000D2300000002
def FAIL_TRAP_MMIO_RD_MISS : Reg := 0x00000D2300000003
def FAIL_TRAP_SYSREG_VAL : Reg := 0x00000D2300000004
def FAIL_TRAP_MMIO_VAL : Reg := 0x00000D2300000005
def FAIL_TRAP_BAD_MAGIC : Reg := 0x00000D2300000006
def FAIL_TRAP_BAD_SYSREG : Reg := 0x00000D2300000007

/-- `TRAP_CTX` and `DEVICE_SHADOW`. -/
structure TrapCtx where
  armed : Bool
  served : Reg
  deviceIpa : Reg
  sysregValue : Reg
  deviceShadow : Reg

namespace TrapCtx

def arm (c : TrapCtx) (deviceIpa : Reg) : TrapCtx :=
  { c with armed := true, served := 0, deviceIpa := deviceIpa, sysregValue := 0 }

def recordSysreg (c : TrapCtx) (v : Reg) : TrapCtx :=
  { c with sysregValue := v, served := c.served ||| TRAP_SYSREG_BIT }

def done (c : TrapCtx) (magic : Reg) : Report :=
  ⟨if c.served &&& TRAP_SYSREG_BIT = 0 then FAIL_TRAP_SYSREG_MISS
    else if c.served &&& TRAP_MMIO_WR_BIT = 0 then FAIL_TRAP_MMIO_WR_MISS
    else if c.served &&& TRAP_MMIO_RD_BIT = 0 then FAIL_TRAP_MMIO_RD_MISS
    else if c.sysregValue ≠ SYSREG_EMU_VAL then FAIL_TRAP_SYSREG_VAL
    else if c.deviceShadow ≠ MMIO_VAL then FAIL_TRAP_MMIO_VAL
    else if magic ≠ TRAP_GUEST_MAGIC then FAIL_TRAP_BAD_MAGIC else 0, c.served⟩

end TrapCtx

/-! ## The virtual interrupt -/

def VGIC_GUEST_MAGIC : Reg := 0x761
def FAIL_VGIC_BAD_MAGIC : Reg := 0x0000076100000001
def FAIL_VGIC_NO_PARK : Reg := 0x0000076100000002
def FAIL_VGIC_NO_RETIRE : Reg := 0x0000076100000003
def FAIL_VGIC_NO_LR : Reg := 0x0000076100000004

/-- `VGIC_CTX`. -/
structure VgicCtx where
  armed : Bool
  parkSeen : Bool
  parks : Reg

namespace VgicCtx

/-- `set_armed` clears what was seen as well. -/
def setArmed (armed : Bool) : VgicCtx := ⟨armed, false, 0⟩

def done (c : VgicCtx) (retired : Bool) (magic : Reg) : Report :=
  ⟨if c.parkSeen = false then FAIL_VGIC_NO_PARK
    else if magic ≠ VGIC_GUEST_MAGIC then FAIL_VGIC_BAD_MAGIC
    else if retired = false then FAIL_VGIC_NO_RETIRE else 0, magic⟩

end VgicCtx

/-! ## The scheduler -/

def N_SLOTS : Nat := 2
def MIN_SLOT_TICKS : Nat := 1

/-- Ticks and address-space number of each slot. -/
structure FramePlan where
  slotTicks : Vector (BitVec 64) 2
  vmid : Vector (BitVec 16) 2

def M27_SLOT0_TICKS : Reg := 0x1000
def M27_SLOT1_TICKS : Reg := 0x2000
def M27_VMID0 : BitVec 16 := 0
def M27_VMID1 : BitVec 16 := 1

def m27FramePlan : FramePlan := ⟨#v[M27_SLOT0_TICKS, M27_SLOT1_TICKS], #v[M27_VMID0, M27_VMID1]⟩

def nextSlot (current : Nat) : Nat := if current ≥ N_SLOTS then 0 else (current + 1) % N_SLOTS

def slotDeadlineDelta (plan : FramePlan) (slot : Nat) : Reg :=
  if h : slot < 2 then BitVec.ofNat 64 (max MIN_SLOT_TICKS plan.slotTicks[slot].toNat)
  else BitVec.ofNat 64 MIN_SLOT_TICKS

/-- `saturating_add`. -/
def satAdd (a b : Reg) : Reg := BitVec.ofNat 64 (satU 64 (a.toNat + b.toNat))

def frameTotal (plan : FramePlan) : Reg :=
  (List.range N_SLOTS).foldl (fun acc s => satAdd acc (slotDeadlineDelta plan s)) 0

structure SchedDecision where
  frameSeq : Reg
  slot : UInt8
  vmidFrom : BitVec 16
  vmidTo : BitVec 16
  tLogical : Reg

/-- `canon` into a buffer that is long enough. -/
def SchedDecision.canon (d : SchedDecision) : List UInt8 :=
  le 8 d.frameSeq.toNat ++ [d.slot] ++ le 2 d.vmidFrom.toNat ++ le 2 d.vmidTo.toNat ++ le 8 d.tLogical.toNat

def K_MAX_FRAMES : Nat := 8
def MAX_YIELDS : Nat := 2 * K_MAX_FRAMES

def TMODE_OFF : Reg := 0
def TMODE_SMOKE : Reg := 1
def TMODE_PREEMPT : Reg := 2

/-- `SCHED_CTX` and `DEVICE_SHADOW_PAIR`. -/
structure SchedCtx where
  armed : Bool
  curSlot : Reg
  framesDone : Reg
  yieldsDone : Reg
  vmid : Vector Reg 2
  vttbr : Vector Reg 2
  entryPc : Vector Reg 2
  slotTicks : Vector Reg 2
  frameSeq : Reg
  tLogical : Reg
  head : Hash.Bytes32
  order : Vector Reg 16
  eoi : Reg
  tmode : Reg
  deviceCount : Vector Reg 2

def FAIL_SCHED_VMID0_STARVED : Reg := 0x000005CE00000002
def FAIL_SCHED_VMID1_STARVED : Reg := 0x000005CE00000003
def FAIL_SCHED_ORDER : Reg := 0x000005CE00000004
def FAIL_SCHED_FOLD : Reg := 0x000005CE00000005
def FAIL_SCHED_TAMPER : Reg := 0x000005CE00000006
def FAIL_SCHED_FRAME : Reg := 0x000005CE00000007
def FAIL_SCHED_SHORT : Reg := 0x000005CE00000008
def FAIL_SCHED_YIELD_UNDER_TIMER : Reg := 0x000005CE0000000E

/-- Where the replay of the folded decisions stands. -/
structure Replay where
  clean : Hash.Bytes32
  tampered : Hash.Bytes32
  tLogical : Reg
  frameSeq : Reg
  cur : Nat

/-- One decision folded in again; the tampered chain has a bit of the first one's slot flipped. -/
def Replay.step (plan : FramePlan) (y : Nat) (r : Replay) : Replay :=
  let nxt := nextSlot r.cur
  let d : SchedDecision :=
    ⟨r.frameSeq, .ofNat nxt, plan.vmid[r.cur % 2], plan.vmid[nxt % 2], r.tLogical⟩
  let id := Mem.Prov.provHash d.canon
  let tid := if y = 0 then Mem.Prov.provHash { d with slot := d.slot ^^^ 0x01 }.canon else id
  { clean := Mem.Prov.chainMix r.clean id
    tampered := Mem.Prov.chainMix r.tampered tid
    tLogical := r.tLogical + plan.slotTicks[r.cur % 2]
    frameSeq := if nxt = 0 then r.frameSeq + 1 else r.frameSeq
    cur := nxt }

/-- `m27_replay_head`. -/
def m27ReplayHead (yields : Nat) : Replay :=
  (List.range yields).foldl (fun r y => r.step m27FramePlan y) ⟨Mem.Prov.genesis, zeros 32, 0, 0, 0⟩

namespace SchedCtx

/-- `set_sched_context`, after which `reset_device_pair_m27`. -/
def set (c : SchedCtx) (plan : FramePlan) (vttbr0 vttbr1 entry0 entry1 : Reg) : SchedCtx :=
  { c with
    armed := true, curSlot := 0, framesDone := 0, yieldsDone := 0
    vmid := plan.vmid.map (·.setWidth 64), vttbr := #v[vttbr0, vttbr1], entryPc := #v[entry0, entry1]
    slotTicks := #v[slotDeadlineDelta plan 0, slotDeadlineDelta plan 1]
    frameSeq := 0, tLogical := 0, eoi := 0, tmode := TMODE_OFF, head := zeros 32
    order := .replicate 16 0, deviceCount := #v[0, 0] }

/-- The slot expected to have run at turn `i`: they alternate from slot 0. -/
def expectAt (i : Nat) : Reg := if i % 2 = 0 then M27_VMID0.setWidth 64 else M27_VMID1.setWidth 64

/-- `order_at`: past the recorded turns, a value no slot has. -/
def orderAt (c : SchedCtx) (i : Nat) : Reg := if h : i < 16 then c.order[i] else BitVec.allOnes 64

/-- `m27_done_verdict`. -/
def done (c : SchedCtx) : Report :=
  have hfirst : 0 < 2 := Nat.zero_lt_two
  have hsecond : 1 < 2 := Nat.one_lt_two
  let c0 := c.deviceCount[0]
  let c1 := c.deviceCount[1]
  let yields := c.yieldsDone
  let stuck := (List.range (min yields.toNat MAX_YIELDS)).find? fun i => c.orderAt i ≠ expectAt i
  let total := frameTotal m27FramePlan
  let replay := m27ReplayHead yields.toNat
  if c0 = 0 then ⟨FAIL_SCHED_VMID0_STARVED, c0⟩
  else if c1 = 0 then ⟨FAIL_SCHED_VMID1_STARVED, c1⟩
  else if yields.toNat < 2 * K_MAX_FRAMES then ⟨FAIL_SCHED_SHORT, yields⟩
  else match stuck with
    | some i => ⟨FAIL_SCHED_ORDER, c.orderAt i⟩
    | none =>
        if total ≠ satAdd c.slotTicks[0] c.slotTicks[1] ∨ total ≠ M27_SLOT0_TICKS + M27_SLOT1_TICKS then
          ⟨FAIL_SCHED_FRAME, total⟩
        else if replay.clean ≠ c.head then ⟨FAIL_SCHED_FOLD, Mem.Prov.headWitness replay.clean⟩
        else if replay.tampered = c.head then ⟨FAIL_SCHED_TAMPER, Mem.Prov.headWitness replay.tampered⟩
        else ⟨0, Mem.Prov.headWitness c.head⟩

end SchedCtx

end Yuva.El2
