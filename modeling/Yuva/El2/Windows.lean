/-
# `Yuva.El2.Windows` — the rest of the monitor

What `Yuva.El2.Monitor` leaves to `Leave.elsewhere`: the second-stage aborts and the parks of the
other windows, and the one interrupt the monitor ever takes (`tb-hal/src/arch/aarch64/el2/mod.rs`
over `stage2.rs`, `el2mmio.rs`, `el2vgic.rs` and `tpsched_hal.rs`).

    an abort        of the two-slot scheduler   a device access of the running slot is counted
                    of trap-and-emulate         the device's register is read or written
                    otherwise                   the hole is mapped and the access runs again
    a park          of the virtual interrupt    the interrupt is made pending, once
                    of the exit table           skipped
    the timer       smoke                       four ticks are counted
                    preempt                     the next slot runs, until eight frames are done

A device fault anywhere else than at the window's own address falls through to the demand path.
`syncHandlerWithWindows` is the whole of `aarch64_el2_sync_handler`: it answers as the monitor's
`syncHandler` does wherever that one has an answer (`syncHandlerWithWindows_eq`).
-/
import Yuva.El2.Monitor

namespace Yuva.El2

open Monitor
open Mmu (levelIndex entryIsValid entryAddr SHIFT_1G SHIFT_2M SHIFT_4K S2_MEMATTR_NORMAL_WB)

/-! ## More of the syndrome -/

def dabtIssSas (esr : Reg) : Reg := (esr >>> 22) &&& 0x3
def dabtIssSse (esr : Reg) : Reg := (esr >>> 21) &&& 1
def dabtAccessSizeBytes (esr : Reg) : Reg := 1 <<< (dabtIssSas esr).toNat

def esrDfsc (esr : Reg) : Reg := esr &&& 0x3F
def DFSC_TRANSLATION_L0 : Reg := 0x04
def DFSC_TRANSLATION_L3 : Reg := 0x07

def esrIsTranslationFault (esr : Reg) : Bool :=
  DFSC_TRANSLATION_L0 ≤ esrDfsc esr && esrDfsc esr ≤ DFSC_TRANSLATION_L3

/-! ## State -/

/-- The monitor, the memory that holds the stage-2 tables, and the word last stored to list
register 0. -/
structure Hyp where
  mon : Monitor
  mem : Mmu.Mem
  lr0 : BitVec 32

namespace Hyp

/-- An answer of the monitor alone. -/
def lift (h : Hyp) (r : Monitor × Leave) : Hyp × Leave := ({ h with mon := r.1 }, r.2)

/-! ## The demand path -/

def FAIL_S2_S1PTW : Reg := 0x00000AC100000002
def FAIL_S2_NOT_XLAT : Reg := 0x00000AC100000003
def FAIL_S2_BAD_IPA : Reg := 0x00000AC100000004
def FAIL_S2_MAP : Reg := 0x00000AC100000005

def s2Leaf4k (pa memattr : Nat) : Nat :=
  Mmu.makeEntry pa (Mmu.S2_DESC_PAGE ||| Mmu.S2_AF ||| Mmu.S2_SH_INNER ||| Mmu.S2AP_RW ||| memattr)

/-- `demand_map_ipa`: one leaf into tables that are there, or nothing. -/
def demandMapIpa (mem : Mmu.Mem) (root ipa pa : Nat) : Option Mmu.Mem :=
  let e1 := mem (root + 8 * levelIndex ipa SHIFT_1G)
  if entryIsValid e1 = false then none
  else
    let e2 := mem (entryAddr e1 + 8 * levelIndex ipa SHIFT_2M)
    if entryIsValid e2 = false then none
    else
      some (Function.update mem (entryAddr e2 + 8 * levelIndex ipa SHIFT_4K) (s2Leaf4k pa S2_MEMATTR_NORMAL_WB))

/-- `aarch64_el2_stage2_abort`: the hole, and nothing but the hole, is mapped; the frame goes back
as it came, so that the access runs again. -/
def stage2Abort (h : Hyp) (e : Exit) : Hyp × Leave :=
  let fail (code word : Reg) : Hyp × Leave :=
    h.lift ({ h.mon with regs := h.mon.regs.disarmStage2 }.returnToKernel ⟨code, word⟩)
  let ipa := e.faultIpa
  let expect := h.mon.s2.expectIpa
  if esrS1ptw e.esr ≠ 0 then fail FAIL_S2_S1PTW ipa
  else if esrIsTranslationFault e.esr = false then fail FAIL_S2_NOT_XLAT e.esr
  else if ipa ≠ expect ∨ pageOf e.far ≠ expect then fail FAIL_S2_BAD_IPA ipa
  else match demandMapIpa h.mem h.mon.s2.root.toNat ipa.toNat h.mon.s2.demand.toNat with
    | none => fail FAIL_S2_MAP ipa
    | some mem =>
        ({ h with mon := { h.mon with s2 := { h.mon.s2 with served := ipa } }, mem := mem }, .retry e.frame)

/-! ## Trap and emulate -/

def FAIL_TRAP_MMIO_NISV : Reg := 0x00000D2300000008

def sizeMask (size : Reg) : Reg := if size ≥ 8 then BitVec.allOnes 64 else (1 <<< (size.toNat * 8)) - 1

/-- What a load delivers: narrowed to the register's width, the sign extended. -/
def loaded (esr shadow : Reg) : Reg :=
  let narrow (v : Reg) : Reg := if dabtIssSf esr = 0 then v &&& 0xFFFFFFFF else v
  let size := dabtAccessSizeBytes esr
  let v := narrow shadow
  if dabtIssSse esr = 1 ∧ size < 8 then
    let shift := 64 - size.toNat * 8
    narrow ((v <<< shift).sshiftRight shift)
  else v

/-- `el2_mmio_emulate`, of the one device register. -/
def mmioEmulate (h : Hyp) (e : Exit) : Hyp × Leave :=
  if e.faultIpa ≠ h.mon.trap.deviceIpa then h.stage2Abort e
  else if dabtIsEmulatable e.esr = false then
    h.lift ({ h.mon with regs := h.mon.regs.disarmStage2 }.returnToKernel ⟨FAIL_TRAP_MMIO_NISV, e.esr⟩)
  else
    let srt := dabtIssSrt e.esr
    let t := h.mon.trap
    if esrWnr e.esr = 1 then
      let value := e.frame.read srt &&& sizeMask (dabtAccessSizeBytes e.esr)
      h.lift ({ h.mon with trap := { t with deviceShadow := value, served := t.served ||| TRAP_MMIO_WR_BIT } },
        .retry e.frame.advance)
    else
      h.lift ({ h.mon with trap := { t with served := t.served ||| TRAP_MMIO_RD_BIT } },
        .retry (e.frame.write srt (loaded e.esr t.deviceShadow)).advance)

/-! ## The scheduler's device -/

def M27_DEVICE_IPA_0 : Reg := 0x240000000
def M27_DEVICE_IPA_1 : Reg := 0x280000000

end Hyp

namespace SchedCtx

def currentSlot (c : SchedCtx) : Nat := c.curSlot.toNat % N_SLOTS

def vmidFor (c : SchedCtx) (slot : Nat) : Reg :=
  have hslot : slot % N_SLOTS < 2 := Nat.mod_lt _ (by decide)
  c.vmid[slot % N_SLOTS]

def vttbrFor (c : SchedCtx) (slot : Nat) : Reg :=
  have hslot : slot % N_SLOTS < 2 := Nat.mod_lt _ (by decide)
  c.vttbr[slot % N_SLOTS]

def entryPcFor (c : SchedCtx) (slot : Nat) : Reg :=
  have hslot : slot % N_SLOTS < 2 := Nat.mod_lt _ (by decide)
  c.entryPc[slot % N_SLOTS]

def slotTicksFor (c : SchedCtx) (slot : Nat) : Reg :=
  have hslot : slot % N_SLOTS < 2 := Nat.mod_lt _ (by decide)
  c.slotTicks[slot % N_SLOTS]

/-- The cell of an address-space number: its lowest bit. -/
def cellOf (vmid : Reg) : Fin 2 := ⟨(vmid &&& 1).toNat, by
  have hle : (vmid &&& 1).toNat ≤ 1 := by
    rw [BitVec.toNat_and]
    exact Nat.and_le_right
  omega⟩

/-- `device_mmio_m27`: a store counts, a load reads the count. -/
def deviceMmioM27 (c : SchedCtx) (isWrite : Bool) (vmid : Reg) : Reg × SchedCtx :=
  let cell := cellOf vmid
  if isWrite then (0, { c with deviceCount := c.deviceCount.set cell (c.deviceCount[cell] + 1) })
  else (c.deviceCount[cell], c)

/-- `note_switch`: the slot that ran is traced, the switch to the next one is folded into the
head, the counters advance.  The answer is the next slot with its root and its entry. -/
def noteSwitch (c : SchedCtx) : (Nat × Reg × Reg) × SchedCtx :=
  let cur := c.currentSlot
  let nxt := nextSlot cur
  let vmidFrom := c.vmidFor cur
  let vmidTo := c.vmidFor nxt
  let yi := c.yieldsDone.toNat
  let order := if yi < MAX_YIELDS then c.order.setIfInBounds yi vmidFrom else c.order
  let d : SchedDecision := ⟨c.frameSeq, .ofNat nxt, vmidFrom.setWidth 16, vmidTo.setWidth 16, c.tLogical⟩
  let head := Mem.Prov.chainMix c.head (Mem.Prov.provHash d.canon)
  let c := { c with
    order := order, head := head
    yieldsDone := .ofNat 64 (yi + 1)
    tLogical := c.tLogical + c.slotTicksFor cur
    framesDone := if nxt = 0 then c.framesDone + 1 else c.framesDone
    frameSeq := if nxt = 0 then c.frameSeq + 1 else c.frameSeq
    curSlot := .ofNat 64 nxt }
  ((nxt, c.vttbrFor nxt, c.entryPcFor nxt), c)

end SchedCtx

namespace Hyp

/-- `el2_mmio_emulate_m27`: the running slot decides whose device it is. -/
def mmioEmulateM27 (h : Hyp) (e : Exit) : Hyp × Leave :=
  let c := h.mon.sched
  let vmid := c.vmidFor c.currentSlot
  let expect := if vmid = M27_VMID0.setWidth 64 then M27_DEVICE_IPA_0 else M27_DEVICE_IPA_1
  if e.faultIpa ≠ expect then h.stage2Abort e
  else if dabtIsEmulatable e.esr = false then
    h.lift ({ h.mon with
      sched := { c with armed := false }
      regs := h.mon.regs.disarmStage2 }.returnToKernel ⟨FAIL_TRAP_MMIO_NISV, e.esr⟩)
  else
    let isWrite := decide (esrWnr e.esr = 1)
    let (value, c) := c.deviceMmioM27 isWrite vmid
    let frame := if isWrite then e.frame else e.frame.write (dabtIssSrt e.esr) value
    h.lift ({ h.mon with sched := c }, .retry frame.advance)

/-! ## Parks -/

def FAIL_VGIC_RELOOP : Reg := 0x0000076100000005
def VGIC_VINTID : Reg := 0x2A
def GICH_LR_STATE_PENDING : Reg := 0b01

def gichLrEncode (vintid pintid state priority group hw eoi : Reg) : BitVec 32 :=
  let v := (vintid &&& 0x3FF) ||| ((pintid &&& 0x3FF) <<< 10) ||| (if eoi &&& 1 ≠ 0 then 1 <<< 19 else 0) |||
    ((priority &&& 0x1F) <<< 23) ||| ((state &&& 0x3) <<< 28) ||| (if group &&& 1 ≠ 0 then 1 <<< 30 else 0) |||
    (if hw &&& 1 ≠ 0 then 1 <<< 31 else 0)
  v.setWidth 32

/-- A park outside of the kernel guest's window. -/
def wfx (h : Hyp) (e : Exit) : Hyp × Leave :=
  if h.mon.vgic.armed then
    let parks := h.mon.vgic.parks + 1
    let m := { h.mon with vgic := { h.mon.vgic with parkSeen := true, parks := parks } }
    if parks > 1 then h.lift (m.returnToKernel ⟨FAIL_VGIC_RELOOP, e.esr⟩)
    else
      ({ h with mon := m, lr0 := gichLrEncode VGIC_VINTID 0 GICH_LR_STATE_PENDING 0 0 0 0 },
        .retry e.frame.advance)
  else if h.mon.exits.armed then
    h.lift ({ h.mon with exits := h.mon.exits.setExitServed EXIT_WFX_BIT }, .retry e.frame.advance)
  else h.lift (h.mon.returnToKernel ⟨FAIL_BAD_EC, e.esr⟩)

/-- `aarch64_el2_sync_handler`, all of it. -/
def syncHandlerWithWindows (h : Hyp) (e : Exit) : Hyp × Leave :=
  if h.mon.kg.armed then h.lift (h.mon.syncHandler e)
  else match classifyExit e.esr with
    | .stageTwoAbort =>
        if h.mon.sched.armed then h.mmioEmulateM27 e
        else if h.mon.trap.armed then h.mmioEmulate e
        else h.stage2Abort e
    | .wfx => h.wfx e
    | _ => h.lift (h.mon.syncHandler e)

/-- Where the monitor has an answer, it is this one. -/
theorem syncHandlerWithWindows_eq (h : Hyp) (e : Exit) (hans : (h.mon.syncHandler e).2 ≠ .elsewhere) :
    h.syncHandlerWithWindows e = h.lift (h.mon.syncHandler e) := by
  rw [syncHandlerWithWindows]
  split
  case isTrue => rfl
  case isFalse hkg =>
    split
    case h_1 hcls =>
      exact absurd (by rw [Monitor.syncHandler, hcls]; simp [hkg]) hans
    case h_2 hcls =>
      exact absurd (by rw [Monitor.syncHandler, hcls]; simp [hkg]) hans
    case h_3 => rfl

end Hyp

end Yuva.El2
