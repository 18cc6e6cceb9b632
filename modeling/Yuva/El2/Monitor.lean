/-
# `Yuva.El2.Monitor` — the resident monitor and its kernel guest

`tb-hal/src/arch/aarch64/el2/mod.rs`, the dispatch of a synchronous exit, and
`el2/l24b_guest.rs`, the handlers of the kernel guest and the facade that launches it and
judges the run.  The guest's image runs confined behind a second stage; every access outside it
comes to `kguestAbort`, its hypercalls to `hvcHandler`, its final `wfi` to `kguestWfx`.

    doorbell page   counted, the value kept
    probe page      a store is counted and dropped
    serial port     emulated; the rest of the two device blocks reads as zero
    elsewhere       the guest is torn down

A handler ends by returning to the guest, by entering a stub, or by unwinding to the host
kernel with a report (`Leave`).  While the kernel guest is armed its handlers come before those
of the other windows; the latter's aborts and parks are `Leave.elsewhere` here, and what the
hypercalls of the other self-tests do is all here, since the dispatch does not ask who calls.
-/
import Yuva.El2.Guestlog
import Yuva.El2.Rungs
import Yuva.Mmu.Stage2

namespace Yuva.El2

open Yuva.Bytes

def SPSR_EL1H_DAIF : Reg := 0x3C5
def SPSR_EL1H_VGIC : Reg := 0x345

/-! ## State -/

/-- `KG_CTX`. -/
structure KgCtx where
  armed : Bool
  done : Bool
  nonce : Reg
  probeIpa : Reg
  doorbellCount : Reg
  doorbellLast : Reg
  echoNonce : Reg
  probeCount : Reg
  trapCount : Reg
  savedSpEl1 : Reg
  lastFaultIpa : Reg
  lastEsr : Reg

/-- EL2's cells: the guest's stage 2 maps none of them. -/
structure Monitor where
  kg : KgCtx
  log : Emitter
  regs : Regs
  /-- The frame at the top of the monitor's stack, saved by the kernel's own hypercall. -/
  b0 : Frame
  s2 : S2Ctx
  exits : ExitsCtx
  trap : TrapCtx
  vgic : VgicCtx
  sched : SchedCtx

/-- Entry points the linker places. -/
inductive Symbol where
  | guestStub | exitsGuestStub
deriving DecidableEq, Repr

/-- How a handler ends. -/
inductive Leave where
  /-- `el2_abort_retry`: the frame restored. -/
  | retry (frame : Frame)
  /-- An `eret` to a fresh entry, with these registers set. -/
  | enter (pc : Symbol ⊕ Reg) (spsr : Reg) (args : List (Nat × Reg))
  /-- `el2_return_to_kernel`: `x0` and `x1` of the host. -/
  | unwind (report : Report)
  | park
  | elsewhere

namespace Monitor

/-! ## Back to the kernel -/

/-- `diag_write_hex`. -/
def diagWriteHex (v : Reg) : List UInt8 :=
  "0x".toUTF8.toList ++ (List.range 16).map fun i => hexDigit (.ofNat ((v >>> (60 - 4 * i)) &&& 0xF).toNat)

def print (m : Monitor) (bytes : List UInt8) : Monitor :=
  { m with log := { m.log with console := m.log.console ++ bytes } }

/-- A frame of zeros was never saved: the monitor says so and parks. -/
def returnToKernel (m : Monitor) (r : Report) : Monitor × Leave :=
  if m.b0.elr = 0 ∧ m.b0.spsr = 0 then
    (m.print ("el2: B0 UNINITIALIZED (pre-L2.0 EL2 entry) -- parking, code=".toUTF8.toList ++
      diagWriteHex r.code ++ " x1=".toUTF8.toList ++ diagWriteHex r.word ++ [LF]), .park)
  else (m, .unwind r)

/-! ## The kernel guest -/

def PL011_BLOCK_BASE : Reg := 0x09000000
def PL011_PAGE : Reg := 0x09000000
def PL011_DR : Reg := 0x000
def PL011_FR : Reg := 0x018
def PL011_FR_IDLE : Reg := 0x90
def VIRTIO_BLOCK_BASE : Reg := 0x0A000000
def BLOCK_2M : Reg := 0x200000
def GUEST_DOORBELL_IPA : Reg := .ofNat 64 (Mmu.GUEST_IPA_BASE + Mmu.GUEST_CARVE_SIZE)
def GUEST_PROBE_PA : Reg := .ofNat 64 (Mmu.GUEST_CARVE_PA - 0x1000)

def KG_TRAP_CAP : Reg := 2000000
def KG_DOORBELL_MIN : Reg := 3
def KG_SCTLR_EL1_MMU_OFF : Reg := 0x30D00800

def FAIL_KG_BUILD : Reg := 0x00000B2400000001
def FAIL_KG_GUEST_REPORTED : Reg := 0x00000B2400000002
def FAIL_KG_EARLY_PARK : Reg := 0x00000B2400000003
def FAIL_KG_STORM : Reg := 0x00000B2400000004
def FAIL_KG_UNEXPECTED_IPA : Reg := 0x00000B2400000005
def FAIL_KG_NISV : Reg := 0x00000B2400000006
def FAIL_KG_IABT : Reg := 0x00000B2400000007
def FAIL_KG_DOORBELL : Reg := 0x00000B2400000008
def FAIL_KG_HANDOFF : Reg := 0x00000B2400000009
def FAIL_KG_PROBE_MISS : Reg := 0x00000B240000000A
def FAIL_KG_SENTINEL : Reg := 0x00000B240000000B
def FAIL_KG_DISCRIMINATOR : Reg := 0x00000B240000000C
def FAIL_KG_S1PTW : Reg := 0x00000B240000000D

def kgTeardown (m : Monitor) : Monitor :=
  { m with
    regs := { m.regs.disarmStage2 with spEl1 := m.kg.savedSpEl1 }
    log := kgLogFlush m.log
    kg := { m.kg with armed := false } }

/-- Teardown comes before any report. -/
def kgReturn (m : Monitor) (code word : Reg) : Monitor × Leave := m.kgTeardown.returnToKernel ⟨code, word⟩

/-- `HVC #16`. -/
def kguestLaunch (m : Monitor) (e : Exit) : Monitor × Leave :=
  let x := e.frame.gpr
  ({ m with
      kg := ⟨true, false, x[4], x[5], 0, 0, 0, 0, 0, e.spEl1, 0, 0⟩
      log := kgLogReset m.log
      regs := { m.regs.armStage2 (HCR_RW ||| HCR_VM ||| HCR_TWI) x[0] x[1] with
        sctlrEl1 := KG_SCTLR_EL1_MMU_OFF } },
    .enter (.inr x[2]) SPSR_EL1H_DAIF [(0, x[3]), (1, 0), (2, 0), (3, 0)])

/-- `HVC #17`. -/
def kguestDone (m : Monitor) (e : Exit) : Monitor × Leave :=
  let status := e.frame.gpr[0]
  let echo := e.frame.gpr[1]
  if status ≠ 0 then m.kgReturn FAIL_KG_GUEST_REPORTED status
  else ({ m with kg := { m.kg with echoNonce := echo, done := true } }, .retry e.frame)

/-- The witness the host unpacks: sixteen bits of the doorbell count, eight of the probe count,
thirty-two of the trap count. -/
def packWitness (doorbell probe traps : Reg) : Reg :=
  (doorbell &&& (0xFFFF : Reg)) ||| ((probe &&& 0xFF) <<< 16) ||| ((traps &&& 0xFFFFFFFF) <<< 32)

/-- A trapped `wfi`. -/
def kguestWfx (m : Monitor) (e : Exit) : Monitor × Leave :=
  if m.kg.done = false then m.kgReturn FAIL_KG_EARLY_PARK e.esr
  else if m.kg.doorbellCount < KG_DOORBELL_MIN ∨ m.kg.doorbellLast ≠ m.kg.nonce ∨
      m.kg.echoNonce ≠ m.kg.nonce then
    m.kgReturn FAIL_KG_DOORBELL m.kg.doorbellCount
  else m.kgReturn 0 (packWitness m.kg.doorbellCount m.kg.probeCount m.kg.trapCount)

def pageOf (a : Reg) : Reg := a &&& ~~~0xFFF

def inPl011Block (ipa : Reg) : Prop := PL011_BLOCK_BASE ≤ ipa ∧ ipa < PL011_BLOCK_BASE + BLOCK_2M
def inVirtioBlock (ipa : Reg) : Prop := VIRTIO_BLOCK_BASE ≤ ipa ∧ ipa < VIRTIO_BLOCK_BASE + BLOCK_2M
def inDoorbell (ipa : Reg) : Prop := pageOf ipa = GUEST_DOORBELL_IPA
def inProbe (probeIpa ipa : Reg) : Prop := pageOf probeIpa ≠ 0 ∧ pageOf ipa = pageOf probeIpa

instance (ipa : Reg) : Decidable (inPl011Block ipa) := inferInstanceAs (Decidable (_ ∧ _))
instance (ipa : Reg) : Decidable (inVirtioBlock ipa) := inferInstanceAs (Decidable (_ ∧ _))
instance (ipa : Reg) : Decidable (inDoorbell ipa) := inferInstanceAs (Decidable (_ = _))
instance (probeIpa ipa : Reg) : Decidable (inProbe probeIpa ipa) := inferInstanceAs (Decidable (_ ∧ _))

/-- A store outside the guest's memory; in a device block what is not the data register is
ignored. -/
def kguestStore (m : Monitor) (ipa off value : Reg) : Monitor :=
  if inDoorbell ipa then
    { m with kg := { m.kg with doorbellCount := m.kg.doorbellCount + 1, doorbellLast := value } }
  else if inProbe m.kg.probeIpa ipa then
    { m with kg := { m.kg with probeCount := m.kg.probeCount + 1 } }
  else if inPl011Block ipa ∧ pageOf ipa = PL011_PAGE ∧ off = PL011_DR then
    { m with log := drWrite m.log value }
  else m

def kguestLoad (m : Monitor) (ipa off : Reg) : Reg :=
  if inPl011Block ipa ∧ pageOf ipa = PL011_PAGE ∧ off = PL011_FR then PL011_FR_IDLE
  else if inDoorbell ipa then m.kg.doorbellCount
  else 0

/-- A stage-2 abort of the guest. -/
def kguestAbort (m : Monitor) (e : Exit) : Monitor × Leave :=
  let traps := m.kg.trapCount + 1
  let ipa := e.faultIpa
  let m := { m with kg := { m.kg with trapCount := traps } }
  if KG_TRAP_CAP < traps then m.kgReturn FAIL_KG_STORM ipa
  else
    let m := { m with kg := { m.kg with lastFaultIpa := ipa, lastEsr := e.esr } }
    if esrEc e.esr = EC_IABT_LOW then m.kgReturn FAIL_KG_IABT ipa
    else if esrS1ptw e.esr ≠ 0 then m.kgReturn FAIL_KG_S1PTW ipa
    else if ¬ (inPl011Block ipa ∨ inVirtioBlock ipa ∨ inDoorbell ipa ∨ inProbe m.kg.probeIpa ipa) then
      m.kgReturn FAIL_KG_UNEXPECTED_IPA ipa
    else if dabtIsEmulatable e.esr = false then
      (m.kgTeardown.print ("el2: nisv-abort ipa=".toUTF8.toList ++ diagWriteHex ipa ++ [LF])).returnToKernel
        ⟨FAIL_KG_NISV, ipa⟩
    else
      let srt := dabtIssSrt e.esr
      -- under the guest's identity map the offset in the page is that of the address it used
      let off := e.far &&& 0xFFF
      if esrWnr e.esr = 1 then
        (m.kguestStore ipa off (e.frame.read srt), .retry e.frame.advance)
      else
        let value := m.kguestLoad ipa off
        let value := if dabtIssSf e.esr = 0 then value &&& 0xFFFFFFFF else value
        (m, .retry (e.frame.write srt value).advance)

/-! ## The dispatch -/

@[match_pattern] abbrev HVC_BOOTSTRAP : Nat := 0
@[match_pattern] abbrev HVC_GUEST_DONE : Nat := 1
@[match_pattern] abbrev HVC_STAGE2_ARM : Nat := 2
@[match_pattern] abbrev HVC_STAGE2_DONE : Nat := 3
@[match_pattern] abbrev HVC_EXITS_ARM : Nat := 4
@[match_pattern] abbrev HVC_EXITS_DONE : Nat := 5
@[match_pattern] abbrev HVC_TRAP_ARM : Nat := 6
@[match_pattern] abbrev HVC_TRAP_DONE : Nat := 7
@[match_pattern] abbrev HVC_NESTED_GUEST_ARM : Nat := 8
@[match_pattern] abbrev HVC_NESTED_GUEST_DONE : Nat := 9
@[match_pattern] abbrev HVC_VGIC_ARM : Nat := 10
@[match_pattern] abbrev HVC_VGIC_DONE : Nat := 11
@[match_pattern] abbrev HVC_SCHED_ARM : Nat := 12
@[match_pattern] abbrev HVC_SCHED_DONE : Nat := 13
@[match_pattern] abbrev HVC_SCHED_YIELD : Nat := 14
@[match_pattern] abbrev HVC_SCHED_TIMER_SMOKE : Nat := 15
@[match_pattern] abbrev HVC_KGUEST_ARM : Nat := 16
@[match_pattern] abbrev HVC_KGUEST_DONE : Nat := 17

/-- A hypercall, from whoever runs at EL1. -/
def hvcHandler (m : Monitor) (e : Exit) : Monitor × Leave :=
  let x := e.frame.gpr
  match e.imm.toNat with
  | HVC_BOOTSTRAP => (m, .enter (.inl .guestStub) SPSR_EL1H_DAIF [])
  | HVC_GUEST_DONE => m.returnToKernel (guestDone x[0])
  | HVC_STAGE2_ARM =>
      ({ m with s2 := .set x[0] x[4] x[5], regs := m.regs.armStage2 (HCR_RW ||| HCR_VM) x[1] x[2] },
        .enter (.inr x[3]) SPSR_EL1H_DAIF [])
  | HVC_STAGE2_DONE => { m with regs := m.regs.disarmStage2 }.returnToKernel (m.s2.done x[0])
  | HVC_EXITS_ARM =>
      ({ m with exits := .arm, regs := m.regs.armExits }, .enter (.inl .exitsGuestStub) SPSR_EL1H_DAIF [])
  | HVC_EXITS_DONE =>
      { m with exits := { m.exits with armed := false }, regs := m.regs.disarmExits }.returnToKernel
        (m.exits.done x[0])
  | HVC_TRAP_ARM =>
      ({ m with
          trap := m.trap.arm x[4]
          regs := m.regs.armStage2 (HCR_RW ||| HCR_VM ||| HCR_TVM) x[1] x[2] },
        .enter (.inr x[3]) SPSR_EL1H_DAIF [])
  | HVC_TRAP_DONE =>
      { m with trap := { m.trap with armed := false }, regs := m.regs.disarmStage2 }.returnToKernel
        (m.trap.done x[0])
  | HVC_NESTED_GUEST_ARM =>
      ({ m with s2 := .set x[0] x[7] x[7], regs := m.regs.armStage2 (HCR_RW ||| HCR_VM) x[1] x[2] },
        .enter (.inr x[3]) SPSR_EL1H_DAIF [(4, x[4]), (5, x[5]), (6, x[6]), (7, x[7])])
  | HVC_NESTED_GUEST_DONE =>
      { m with regs := m.regs.disarmStage2 }.returnToKernel (nestedDone e.demandWord x[0])
  | HVC_VGIC_ARM =>
      if vtrListRegs e.gichVtr = 0 then
        { m with vgic := .setArmed false, regs := m.regs.disarmVgic }.returnToKernel ⟨FAIL_VGIC_NO_LR, e.esr⟩
      else
        ({ m with vgic := .setArmed true, regs := m.regs.armVgic }, .enter (.inr x[3]) SPSR_EL1H_VGIC [])
  | HVC_VGIC_DONE =>
      { m with vgic := .setArmed false, regs := m.regs.disarmVgic }.returnToKernel
        (m.vgic.done e.lr0Retired x[0])
  | HVC_SCHED_ARM =>
      ({ m with
          sched := { m.sched.set m27FramePlan x[1] x[2] x[3] x[4] with tmode := TMODE_PREEMPT }
          regs := (m.regs.armStage2 (HCR_RW ||| HCR_VM) x[0] x[1]).armCnthp true },
        .enter (.inr x[3]) SPSR_EL1H_DAIF [])
  | HVC_SCHED_DONE =>
      { m with sched := { m.sched with armed := false }, regs := m.regs.disarmStage2 }.returnToKernel
        m.sched.done
  | HVC_SCHED_YIELD =>
      { m with
        sched := { m.sched with armed := false, tmode := TMODE_OFF }
        regs := m.regs.disarmStage2 }.returnToKernel ⟨FAIL_SCHED_YIELD_UNDER_TIMER, e.esr⟩
  | HVC_SCHED_TIMER_SMOKE =>
      ({ m with
          sched := { m.sched with eoi := 0, tmode := TMODE_SMOKE }
          regs := m.regs.armCnthp false },
        .enter (.inr x[3]) SPSR_EL1H_DAIF [])
  | HVC_KGUEST_ARM => m.kguestLaunch e
  | HVC_KGUEST_DONE =>
      if m.kg.armed then m.kguestDone e
      else m.returnToKernel ⟨FAIL_BAD_IMM, .ofNat 64 HVC_KGUEST_DONE⟩
  | _ => m.returnToKernel ⟨FAIL_BAD_IMM, e.imm⟩

/-- A trapped write of the context register is recorded and skipped, any other fails. -/
def el2SysregEmulate (m : Monitor) (e : Exit) : Monitor × Leave :=
  if e.esr &&& SYSREG_ISS_SYS_MASK ≠ SYS_CONTEXTIDR_EL1 ∨ sysregIssIsRead e.esr = true then
    { m with regs := m.regs.disarmStage2 }.returnToKernel ⟨FAIL_TRAP_BAD_SYSREG, e.esr⟩
  else
    ({ m with trap := m.trap.recordSysreg (e.frame.read (sysregIssRt e.esr)) }, .retry e.frame.advance)

/-- An undefined instruction, delivered to EL1's own vector. -/
def el2InjectUndef (m : Monitor) (e : Exit) : Monitor × Leave :=
  ({ m with
      exits := m.exits.setExitServed EXIT_UNDEF_BIT
      regs := { m.regs with esrEl1 := esrInjectUndef, elrEl1 := e.frame.elr, spsrEl1 := e.frame.spsr } },
    .enter (.inr (e.vbarEl1 + EL1_SYNC_SPX_OFFSET)) SPSR_EL1H_DAIF [])

/-- `aarch64_el2_sync_handler`. -/
def syncHandler (m : Monitor) (e : Exit) : Monitor × Leave :=
  match classifyExit e.esr with
  | .stageTwoAbort => if m.kg.armed then m.kguestAbort e else (m, .elsewhere)
  | .wfx => if m.kg.armed then m.kguestWfx e else (m, .elsewhere)
  | .undef => if m.exits.armed then m.el2InjectUndef e else m.returnToKernel ⟨FAIL_BAD_EC, e.esr⟩
  | .sys64 => if m.trap.armed then m.el2SysregEmulate e else m.returnToKernel ⟨FAIL_BAD_EC, e.esr⟩
  | .smc => m.returnToKernel ⟨FAIL_BAD_EC, e.esr⟩
  | .hvc => m.hvcHandler e

end Monitor

/-! ## The facade -/

inductive KernelGuestProof where
  | notApplicable
  | unavailable
  | noImage
  | faulted (code info : Reg)
  | proven (nonce doorbell probe traps : Reg)
deriving DecidableEq, Repr

/-- What the facade finds before it launches. -/
structure HostEnv where
  bootedAtEl2 : UInt8
  imageStaged : Bool
  cntpct : Reg
  /-- `build_handoff_flagged` wrote the boot block. -/
  handoffBuilt : Bool
  phys : Mmu.Phys
  /-- The link address of `_tb_start`. -/
  tbStart : Reg

/-- What it reads back afterwards: the word behind the probe page, and two bytes of the guest's
copy of the image. -/
structure Readback where
  sentinel : Reg
  entryEl : UInt8
  guestEl2 : UInt8

def pickNonce (c : Reg) : Reg :=
  let n := (c * 0x9E3779B97F4A7C15) ^^^ (c <<< 32)
  if n = 0 then 0x0B240B240B240B24 else n

/-- The registers of `HVC #16` that the run chooses. -/
structure Launch where
  vtcr : Reg
  vttbr : Reg
  entry : Reg
  nonce : Reg
deriving DecidableEq

def AARCH64_BOOT_INFO_ADDR : Reg := 0x40001000
def KG_PROBE_SENTINEL : Reg := 0x484F5354_5241_4D21

namespace HostEnv

/-- Up to the hypercall. -/
def preflight (env : HostEnv) : Except KernelGuestProof Launch :=
  if env.bootedAtEl2 ≠ 1 then .error .unavailable
  else if env.imageStaged = false then .error .noImage
  else if env.handoffBuilt = false then .error (.faulted Monitor.FAIL_KG_HANDOFF 0)
  else match env.phys.buildGuestStage2.1 with
    | none => .error (.faulted Monitor.FAIL_KG_BUILD 0)
    | some root =>
        .ok ⟨.ofNat 64 Mmu.computeVtcr, .ofNat 64 (Mmu.computeVttbrVmid root Mmu.KGUEST_VMID), env.tbStart,
          pickNonce env.cntpct⟩

end HostEnv

/-- The host's hypercall: `host` is the exit but for its syndrome and its six arguments. -/
def Launch.exit (l : Launch) (host : Exit) : Exit :=
  { host with
    esr := (EC_HVC64 <<< 26) ||| ESR_IL ||| 16
    frame := { host.frame with
      gpr := (((((host.frame.gpr.set 0 l.vtcr).set 1 l.vttbr).set 2 l.entry).set 3
        AARCH64_BOOT_INFO_ADDR).set 4 l.nonce).set 5 Monitor.GUEST_PROBE_PA } }

/-- From the two result registers on. -/
def postflight (nonce : Reg) (r : Report) (rb : Readback) : KernelGuestProof :=
  let packed := r.word
  let doorbell := packed &&& 0xFFFF
  let probe := (packed >>> 16) &&& 0xFF
  let traps := packed >>> 32
  if r.code ≠ 0 then .faulted r.code packed
  else if probe ≠ 1 then .faulted Monitor.FAIL_KG_PROBE_MISS probe
  else if rb.sentinel ≠ KG_PROBE_SENTINEL then .faulted Monitor.FAIL_KG_SENTINEL 0
  else if rb.entryEl ≠ 0xFF ∨ rb.guestEl2 ≠ 0 then
    .faulted Monitor.FAIL_KG_DISCRIMINATOR
      ((BitVec.ofNat 64 rb.entryEl.toNat <<< 8) ||| BitVec.ofNat 64 rb.guestEl2.toNat)
  else .proven nonce doorbell probe traps

/-! ## The acts of a guest -/

inductive GuestAct where
  | doorbell (value : Reg)
  | probe
  | done (echo : Reg)
deriving DecidableEq, Repr

open Monitor in
/-- What an exit says the guest did. -/
def Exit.act (e : Exit) : Option GuestAct :=
  match classifyExit e.esr with
  | .stageTwoAbort =>
      if esrEc e.esr ≠ EC_DABT_LOW ∨ esrWnr e.esr ≠ 1 then none
      else if inDoorbell e.faultIpa then some (.doorbell (e.frame.read (dabtIssSrt e.esr)))
      else if inProbe GUEST_PROBE_PA e.faultIpa then some .probe
      else none
  | .hvc =>
      if e.imm.toNat = HVC_KGUEST_DONE ∧ e.frame.gpr[0] = 0 then some (.done e.frame.gpr[1]) else none
  | _ => none

end Yuva.El2
