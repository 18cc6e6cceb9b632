/-
# `Yuva.El2.Trap` — exits of a guest and their syndromes

`tb-encode/src/el2_trap.rs`: the decoders of `ESR_EL2` and `HPFAR_EL2` and the table
`classify_exit` that sorts an exit by its exception class; with the frame the vector saves
(`el2/mod.rs`) and what else a handler can read of the machine at an exit.

The decoders take the raw registers and are total: a field is shifted down and masked.
-/
import Mathlib.Data.List.Basic

namespace Yuva.El2

/-- A general or system register. -/
abbrev Reg := BitVec 64

/-! ## `ESR_EL2` and `HPFAR_EL2` -/

def EC_WFX : Reg := 0x01
def EC_HVC64 : Reg := 0x16
def EC_SMC64 : Reg := 0x17
def EC_SYS64 : Reg := 0x18
def EC_IABT_LOW : Reg := 0x20
def EC_DABT_LOW : Reg := 0x24

def esrEc (esr : Reg) : Reg := (esr >>> 26) &&& 0x3F

/-- One for a write. -/
def esrWnr (esr : Reg) : Reg := (esr >>> 6) &&& 1

/-- One when the guest's own table walk faulted. -/
def esrS1ptw (esr : Reg) : Reg := (esr >>> 7) &&& 1

/-- The page of the address that faulted. -/
def hpfarFaultIpa (hpfar : Reg) : Reg := (hpfar &&& ~~~0xF) <<< 8

inductive ExitClass where
  | stageTwoAbort | hvc | smc | sys64 | wfx | undef
deriving DecidableEq, Repr

def classifyExit (esr : Reg) : ExitClass :=
  let ec := esrEc esr
  if ec = EC_DABT_LOW ∨ ec = EC_IABT_LOW then .stageTwoAbort
  else if ec = EC_HVC64 then .hvc
  else if ec = EC_SMC64 then .smc
  else if ec = EC_SYS64 then .sys64
  else if ec = EC_WFX then .wfx
  else .undef

def ESR_IL : Reg := 1 <<< 25

/-- The syndrome of an injected undefined instruction: class zero, a 32-bit instruction. -/
def esrInjectUndef : Reg := ESR_IL

def EL1_SYNC_SPX_OFFSET : Reg := 0x200

/-! ### A trapped system register -/

def sysregIssRt (esr : Reg) : Reg := (esr >>> 5) &&& 0x1F
def sysregIssIsRead (esr : Reg) : Bool := (esr &&& 1) ≠ 0

def sysregIssSysVal (op0 op1 op2 crn crm : Reg) : Reg :=
  (op0 <<< 20) ||| (op2 <<< 17) ||| (op1 <<< 14) ||| (crn <<< 10) ||| (crm <<< 1)

def SYSREG_ISS_SYS_MASK : Reg :=
  ((0x3 : Reg) <<< 20) ||| ((0x7 : Reg) <<< 17) ||| ((0x7 : Reg) <<< 14) ||| ((0xF : Reg) <<< 10) |||
    ((0xF : Reg) <<< 1)

def SYS_CONTEXTIDR_EL1 : Reg := sysregIssSysVal 3 0 1 13 0

/-! ### A data abort -/

def dabtIssIsv (esr : Reg) : Reg := (esr >>> 24) &&& 1
def dabtIssSrt (esr : Reg) : Reg := (esr >>> 16) &&& 0x1F
def dabtIssSf (esr : Reg) : Reg := (esr >>> 15) &&& 1

/-- A single-register load or store, and not of the guest's own table walk. -/
def dabtIsEmulatable (esr : Reg) : Bool := dabtIssIsv esr ≠ 0 && esrS1ptw esr = 0

/-! ### List registers of the interrupt controller -/

def lrState (lr : BitVec 32) : BitVec 32 := (lr >>> 28) &&& 0b11

def GICH_LR_STATE_INVALID : BitVec 32 := 0b00

def lrIsRetired (lr : BitVec 32) : Bool := lrState lr = GICH_LR_STATE_INVALID

def vtrListRegs (vtr : BitVec 32) : Reg := (vtr.setWidth 64 &&& 0x3F) + 1

/-! ## Frames and exits -/

/-- What the vector saves: `x0` to `x30`, the return address and the saved state. -/
structure Frame where
  gpr : Vector Reg 31
  elr : Reg
  spsr : Reg
deriving DecidableEq

namespace Frame

/-- The register a five-bit field names; 31 reads as zero. -/
def read (f : Frame) (r : Reg) : Reg := if h : r.toNat < 31 then f.gpr[r.toNat] else 0

/-- A write to register 31 is lost. -/
def write (f : Frame) (r v : Reg) : Frame :=
  if h : r.toNat < 31 then { f with gpr := f.gpr.set r.toNat v } else f

/-- Past the instruction that trapped. -/
def advance (f : Frame) : Frame := { f with elr := f.elr + 4 }

end Frame

/-- A synchronous exit to EL2: the frame, the registers that describe it, and what the
handlers read of the rest of the machine. -/
structure Exit where
  frame : Frame
  esr : Reg
  hpfar : Reg
  far : Reg
  spEl1 : Reg
  vbarEl1 : Reg
  /-- The word at the demand frame of the stage-2 context. -/
  demandWord : Reg
  gichVtr : BitVec 32
  gichElrsr0 : BitVec 32
  gichLr0 : BitVec 32
deriving DecidableEq

def HVC_IMM_MASK : Reg := 0xFFFF

namespace Exit

/-- The immediate of a hypercall. -/
def imm (e : Exit) : Reg := e.esr &&& HVC_IMM_MASK

def faultIpa (e : Exit) : Reg := hpfarFaultIpa e.hpfar

/-- `lr0_retired`: the list register is empty by both of its witnesses. -/
def lr0Retired (e : Exit) : Bool := (e.gichElrsr0 &&& 1) ≠ 0 && lrIsRetired e.gichLr0

end Exit

end Yuva.El2
