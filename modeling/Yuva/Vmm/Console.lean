/-
# `Yuva.Vmm.Console` — what the guest prints is what the host shows

The run loop of `tb-vmm/src/vmm.rs` over the two port devices, the UART (`serial.rs`) and the
boot-ready port (`report.rs`), with the kernel's polled console driver
(`tb-hal/src/arch/x86_64/serial.rs` under the display gate of `tb-hal/src/lib.rs`) as the
guest.  Between any two of the driver's accesses the guest may do anything else that leaves
the two devices alone: other ports, the whole of the MMIO bus, exits the loop ignores and
signals (`Weave`).

    stdout is what the kernel's calls print, in their order, with the report line at the
      first boot-ready signal where the flag asks for it; whatever stops the run, it is the
      beginning of that                                                          (`console_exact`)
    a run inside the clock and the exit budget ends as the guest does, and no other run does

The clock and the MMIO device are parameters of the run.
-/
import Yuva.Vmm.Bus
import Yuva.Lib.Decimal

namespace Yuva.Vmm

open Yuva.Decimal

/-! ## The UART -/

def LCR_DLAB : UInt8 := 0x80
def LSR_DR : UInt8 := 0x01
def LSR_THRE : UInt8 := 0x20
def LSR_TEMT : UInt8 := 0x40
def MSR_DEFAULT : UInt8 := 0xB0
def IIR_NO_INT : UInt8 := 0x01

structure Serial where
  ier : UInt8
  lcr : UInt8
  mcr : UInt8
  scr : UInt8
  fcr : UInt8
  dll : UInt8
  dlm : UInt8
  input : List UInt8
  deriving DecidableEq, Repr

namespace Serial

def new : Serial := ⟨0, 0, 0, 0, 0, 0, 0, []⟩

def dlab (s : Serial) : Bool := s.lcr &&& LCR_DLAB != 0

/-- Always ready to transmit. -/
def lineStatus (s : Serial) : UInt8 :=
  if s.input.isEmpty then LSR_THRE ||| LSR_TEMT else LSR_THRE ||| LSR_TEMT ||| LSR_DR

def readReg (s : Serial) : Nat → UInt8 × Serial
  | 0 => if s.dlab then (s.dll, s) else (s.input.headD 0, { s with input := s.input.tail })
  | 1 => (if s.dlab then s.dlm else s.ier, s)
  | 2 => (IIR_NO_INT, s)
  | 3 => (s.lcr, s)
  | 4 => (s.mcr, s)
  | 5 => (s.lineStatus, s)
  | 6 => (MSR_DEFAULT, s)
  | 7 => (s.scr, s)
  | _ => (0, s)

/-- The registers after the write, and the byte that was transmitted.  With the latch bit set
the first two registers are the divisor. -/
def writeReg (s : Serial) (value : UInt8) : Nat → Serial × List UInt8
  | 0 => if s.dlab then ({ s with dll := value }, []) else (s, [value])
  | 1 => if s.dlab then ({ s with dlm := value }, []) else ({ s with ier := value }, [])
  | 2 => ({ s with fcr := value }, [])
  | 3 => ({ s with lcr := value }, [])
  | 4 => ({ s with mcr := value }, [])
  | 7 => ({ s with scr := value }, [])
  | _ => (s, [])

end Serial

/-! ## The port bus -/

abbrev Instant := Nat

/-- What the devices on the port bus hold; `now` is the host's clock when the access arrives. -/
structure Ports where
  serial : Serial
  stdout : List UInt8
  readyCell : Option Instant
  now : Instant

inductive PortDevice where
  | serial
  | bootReady
  deriving DecidableEq, Repr

/-- The value in the first byte, zeros behind it. -/
def firstByte (value : UInt8) : Nat → List UInt8
  | 0 => []
  | n + 1 => value :: List.replicate n 0

def serialDevice : BusDevice Ports where
  read s offset n := (firstByte (s.serial.readReg offset.toNat).1 n,
    { s with serial := (s.serial.readReg offset.toNat).2 })
  write s offset data :=
    match data with
    | [] => s
    | value :: _ =>
        let (serial, sent) := s.serial.writeReg value offset.toNat
        { s with serial := serial, stdout := s.stdout ++ sent }

/-- The first write is stamped; later ones, and the value, are ignored. -/
def bootReadyDevice : BusDevice Ports where
  read s _ n := (List.replicate n 0, s)
  write s _ _ := { s with readyCell := some (s.readyCell.getD s.now) }

def portDevice : PortDevice → BusDevice Ports
  | .serial => serialDevice
  | .bootReady => bootReadyDevice

def COM1_BASE : BitVec 64 := 0x3F8
def COM1_LEN : BitVec 64 := 8
def BOOT_READY_PORT : BitVec 64 := 0x510
def BOOT_READY_LEN : BitVec 64 := 1
def XPORT_MMIO_BASE : BitVec 64 := 0xFEB00000
def XPORT_MMIO_LEN : BitVec 64 := 0x200

/-- The buses as `Vmm::new` wires them. -/
def pioBus : Except BusError (Bus PortDevice) := do
  let bus ← Bus.new.register ⟨COM1_BASE, COM1_LEN, .serial⟩
  bus.register ⟨BOOT_READY_PORT, BOOT_READY_LEN, .bootReady⟩

def mmioBus : Except BusError (Bus Unit) := Bus.new.register ⟨XPORT_MMIO_BASE, XPORT_MMIO_LEN, ()⟩

/-! ## The report -/

structure SpawnPhases where
  t0 : Instant
  afterKvm : Instant
  afterRam : Instant
  afterLoad : Instant
  afterSetup : Instant

/-- The spans of time are cut off at zero. -/
def formatReport (p : SpawnPhases) (ready : Instant) : List UInt8 :=
  "spawn-ready-ns=".toUTF8.toList ++ decimal (ready - p.t0) ++
    " phase-kvm-ns=".toUTF8.toList ++ decimal (p.afterKvm - p.t0) ++
    " phase-ram-ns=".toUTF8.toList ++ decimal (p.afterRam - p.afterKvm) ++
    " phase-load-ns=".toUTF8.toList ++ decimal (p.afterLoad - p.afterRam) ++
    " phase-setup-ns=".toUTF8.toList ++ decimal (p.afterSetup - p.afterLoad)

/-! ## The run loop -/

def MAX_EXITS : Nat := 20000000

def EINTR : Int := 4

inductive VcpuExit where
  | ioIn (port : BitVec 16) (len : Nat)
  | ioOut (port : BitVec 16) (data : List UInt8)
  | mmioRead (addr : BitVec 64) (len : Nat)
  | mmioWrite (addr : BitVec 64) (data : List UInt8)
  | hlt
  | shutdown
  | systemEvent (event : BitVec 32)
  | failEntry (reason : BitVec 64) (cpu : BitVec 32)
  | internalError
  | unhandled
  deriving DecidableEq, Repr

/-- What `KVM_RUN` returns: an exit, or an error number. -/
abbrev KvmRun := Except Int VcpuExit

inductive Outcome where
  | halted
  | shutdown
  | systemEvent (event : BitVec 32)
  | timeout
  | exitBudget
  | fail (reason : BitVec 64) (cpu : BitVec 32)
  | internal
  | runErr (errno : Int)
  deriving DecidableEq, Repr

/-- The exits that end the run; a signal does not. -/
def ending : KvmRun → Option Outcome
  | .ok .hlt => some .halted
  | .ok .shutdown => some .shutdown
  | .ok (.systemEvent event) => some (.systemEvent event)
  | .ok (.failEntry reason cpu) => some (.fail reason cpu)
  | .ok .internalError => some .internal
  | .error e => if e = EINTR then none else some (.runErr e)
  | _ => none

/-- Only a halt is success. -/
def exitCode : Outcome → Nat
  | .halted => 0
  | _ => 1

/-- What a run is given: the flag, the clock at each turn (against the deadline, and as a
device reads it), and the device on the MMIO bus. -/
structure Host (ξ : Type) where
  reportSpawn : Bool
  phases : SpawnPhases
  late : Nat → Bool
  instant : Nat → Instant
  pio : Bus PortDevice
  mmio : Bus Unit
  xport : BusDevice ξ
  pioWired : pioBus = .ok pio
  mmioWired : mmioBus = .ok mmio

structure VmmRun (ξ : Type) where
  ports : Ports
  xport : ξ
  reported : Bool

namespace Host

variable {ξ : Type} (h : Host ξ)

/-- The line the report prints. -/
def reportLine (ready : Instant) : List UInt8 := formatReport h.phases ready ++ [0x0A]

def maybeReportSpawn (v : VmmRun ξ) : VmmRun ξ :=
  if !h.reportSpawn || v.reported then v
  else
    match v.ports.readyCell with
    | none => v
    | some ready =>
        { v with ports := { v.ports with stdout := v.ports.stdout ++ h.reportLine ready }, reported := true }

/-- The access of turn `i`, handed to its bus: what the guest reads, and the monitor after it. -/
def dispatch (i : Nat) (v : VmmRun ξ) : VcpuExit → List UInt8 × VmmRun ξ
  | .ioIn port n =>
      let (data, ports) := h.pio.read portDevice { v.ports with now := h.instant i } (port.setWidth 64) n
      (data, { v with ports := ports })
  | .ioOut port data =>
      ([], { v with ports := h.pio.write portDevice { v.ports with now := h.instant i } (port.setWidth 64) data })
  | .mmioRead addr n =>
      let (data, xport) := h.mmio.read (fun _ => h.xport) v.xport addr n
      (data, { v with xport := xport })
  | .mmioWrite addr data => ([], { v with xport := h.mmio.write (fun _ => h.xport) v.xport addr data })
  | _ => ([], v)

/-- A turn that does not end the run.  After a signal the report is not looked at. -/
def turn (i : Nat) (v : VmmRun ξ) : KvmRun → List UInt8 × VmmRun ξ
  | .error _ => ([], v)
  | .ok x =>
      let (data, v) := h.dispatch i v x
      (data, h.maybeReportSpawn v)

variable {ι : Type} (exit : ι → KvmRun) (done : ι → List UInt8 → Bool)

/-- The loop, with `left` exits in the budget after `i` turns.  The guest leaves with each of its
instructions in turn, again while one is not done with what it read, and with `last` from then
on. -/
def loop (last : KvmRun) : Nat → Nat → VmmRun ξ → List ι → Outcome × VmmRun ξ
  | 0, i, v, _ => (if h.late i then .timeout else .exitBudget, v)
  | left + 1, i, v, script =>
      if h.late i then (.timeout, v)
      else
        let r := (script.head?.map exit).getD last
        match ending r with
        | some o => (o, v)
        | none =>
            let (data, v) := h.turn i v r
            loop last left (i + 1) v <|
              match script with
              | [] => []
              | x :: rest => if done x data then rest else x :: rest

end Host

def Ports.new : Ports := ⟨.new, [], none, 0⟩

/-- The run of a guest on fresh devices. -/
def Host.run {ξ ι : Type} (h : Host ξ) (xport : ξ) (exit : ι → KvmRun) (done : ι → List UInt8 → Bool)
    (script : List ι) (last : KvmRun) : Outcome × VmmRun ξ :=
  h.loop exit done last MAX_EXITS 0 ⟨.new, xport, false⟩ script

/-! ## The kernel's console -/

def COM1 : BitVec 16 := 0x3F8

/-- The 16550's registers, by their offset. -/
inductive Reg where
  | thr
  | ier
  | fcr
  | lcr
  | mcr
  | lsr
  deriving DecidableEq, Repr

def Reg.port : Reg → BitVec 16
  | .thr => COM1
  | .ier => COM1 + 1
  | .fcr => COM1 + 2
  | .lcr => COM1 + 3
  | .mcr => COM1 + 4
  | .lsr => COM1 + 5

/-- One access of the guest: a turn of the loop that waits for the transmitter, a byte to a
register, the boot-ready signal, or anything else. -/
inductive Insn where
  | poll
  | out (reg : Reg) (val : UInt8)
  | signal
  | other (r : KvmRun)
  deriving DecidableEq, Repr

namespace Insn

def exit : Insn → KvmRun
  | .poll => .ok (.ioIn (Reg.port .lsr) 1)
  | .out reg val => .ok (.ioOut reg.port [val])
  | .signal => .ok (.ioOut 0x510 [0])
  | .other r => r

/-- `while inb(COM1 + LSR) & LSR_THRE == 0` goes round until the bit is set. -/
def done : Insn → List UInt8 → Bool
  | .poll, data => data.headD 0 &&& LSR_THRE != 0
  | _, _ => true

end Insn

def serialInit : List Insn :=
  [.out .ier 0x00, .out .lcr 0x80, .out .thr 0x01, .out .ier 0x00, .out .lcr 0x03, .out .fcr 0xC7, .out .mcr 0x0B]

def serialWriteByte (b : UInt8) : List Insn := [.poll, .out .thr b]

/-- The calls of `tb_hal` that reach the two devices. -/
inductive Call where
  | serialInit
  | serialSetQuiet (quiet : Bool)
  | serialWriteByte (b : UInt8)
  | serialWriteStr (s : List UInt8)
  | serialWriteByteRaw (b : UInt8)
  | serialWriteStrRaw (s : List UInt8)
  | bootReadySignal

namespace Call

/-- The gate after the call. -/
def quiet (q : Bool) : Call → Bool
  | .serialSetQuiet q' => q'
  | _ => q

/-- What the call does to the devices behind the gate. -/
def insns (q : Bool) : Call → List Insn
  | .serialInit => Vmm.serialInit
  | .serialSetQuiet _ => []
  | .serialWriteByte b => if q then [] else Vmm.serialWriteByte b
  | .serialWriteStr s => if q then [] else s.flatMap Vmm.serialWriteByte
  | .serialWriteByteRaw b => Vmm.serialWriteByte b
  | .serialWriteStrRaw s => s.flatMap Vmm.serialWriteByte
  | .bootReadySignal => [.signal]

end Call

def compile : Bool → List Call → List Insn
  | _, [] => []
  | q, c :: cs => c.insns q ++ compile (c.quiet q) cs

/-! ## What should be seen -/

/-- What a call prints. -/
def Call.printed (q : Bool) : Call → List UInt8
  | .serialWriteByte b => if q then [] else [b]
  | .serialWriteStr s => if q then [] else s
  | .serialWriteByteRaw b => [b]
  | .serialWriteStrRaw s => s
  | _ => []

/-- The calls' bytes in order, and `line` at the first signal. -/
def transcript (line : List UInt8) : Bool → Bool → List Call → List UInt8
  | _, _, [] => []
  | q, signalled, .bootReadySignal :: cs => (if signalled then [] else line) ++ transcript line q true cs
  | q, signalled, c :: cs => c.printed q ++ transcript line (c.quiet q) signalled cs

/-- Neither of the two devices. -/
def Aside (port : BitVec 16) : Prop := ¬ (0x3F8 ≤ port.toNat ∧ port.toNat < 0x400) ∧ port.toNat ≠ 0x510

/-- What leaves the two devices alone and does not end the run. -/
def Foreign : KvmRun → Prop
  | .error e => e = EINTR
  | .ok (.ioIn port _) => Aside port
  | .ok (.ioOut port _) => Aside port
  | .ok (.mmioRead _ _) => True
  | .ok (.mmioWrite _ _) => True
  | .ok .unhandled => True
  | _ => False

def Insn.own : Insn → Bool
  | .other _ => false
  | _ => true

/-- `w` is the program `p` with foreign exits anywhere between its instructions. -/
inductive Weave : List Insn → List Insn → Prop
  | nil : Weave [] []
  | own {x : Insn} {p w : List Insn} : x.own = true → Weave p w → Weave (x :: p) (x :: w)
  | other {r : KvmRun} {p w : List Insn} : Foreign r → Weave p w → Weave p (.other r :: w)

/-! ## Instruction by instruction -/

namespace Insn

/-- What the instruction transmits, with the latch bit and the signal as they stand. -/
def emits (line : List UInt8) (dlab signalled : Bool) : Insn → List UInt8
  | .out .thr val => if dlab then [] else [val]
  | .signal => if signalled then [] else line
  | _ => []

def latch (dlab : Bool) : Insn → Bool
  | .out .lcr val => val &&& LCR_DLAB != 0
  | _ => dlab

def signals (signalled : Bool) : Insn → Bool
  | .signal => true
  | _ => signalled

end Insn

def emitted (line : List UInt8) : Bool → Bool → List Insn → List UInt8
  | _, _, [] => []
  | dlab, signalled, x :: p =>
      x.emits line dlab signalled ++ emitted line (x.latch dlab) (x.signals signalled) p

variable {line : List UInt8} {signalled : Bool}

theorem emitted_writeByte (b : UInt8) (p : List Insn) :
    emitted line false signalled (serialWriteByte b ++ p) = b :: emitted line false signalled p := rfl

theorem emitted_writeStr (s : List UInt8) (p : List Insn) :
    emitted line false signalled (s.flatMap serialWriteByte ++ p) = s ++ emitted line false signalled p := by
  induction s with
  | nil => rfl
  | cons b s ih =>
      rw [List.flatMap_cons, List.append_assoc, emitted_writeByte, ih]
      rfl

theorem emitted_init (p : List Insn) :
    emitted line false signalled (serialInit ++ p) = emitted line false signalled p := rfl

/-- The instructions print what the calls do; the latch bit is down at every call. -/
theorem emitted_compile (cs : List Call) (q : Bool) :
    emitted line false signalled (compile q cs) = transcript line q signalled cs := by
  induction cs generalizing q signalled with
  | nil => rfl
  | cons c cs ih =>
      rw [compile]
      cases c with
      | serialInit => exact (emitted_init _).trans (ih q)
      | serialSetQuiet q' => exact ih q'
      | bootReadySignal =>
          show _ ++ emitted line false true (compile q cs) = _
          rw [ih]
          rfl
      | serialWriteByteRaw b =>
          refine (emitted_writeByte b _).trans ?_
          rw [ih]
          rfl
      | serialWriteStrRaw s =>
          refine (emitted_writeStr s _).trans ?_
          rw [ih]
          rfl
      | serialWriteByte b =>
          cases q with
          | true => exact ih true
          | false =>
              refine (emitted_writeByte b _).trans ?_
              rw [ih]
              rfl
      | serialWriteStr s =>
          cases q with
          | true => exact ih true
          | false =>
              refine (emitted_writeStr s _).trans ?_
              rw [ih]
              rfl

namespace Host

variable {ξ : Type} (h : Host ξ)

/-! ## The two devices on their bus -/

def com1 : Entry PortDevice := ⟨COM1_BASE, COM1_LEN, .serial⟩

def bootReady : Entry PortDevice := ⟨BOOT_READY_PORT, BOOT_READY_LEN, .bootReady⟩

/-- Both registrations succeed. -/
theorem pio_entries : h.pio.entries = [com1, bootReady] := by
  have hbus : pioBus = .ok ⟨[com1, bootReady], by simp [Span.Sorted]; decide⟩ := rfl
  rw [← Except.ok.inj (hbus.symm.trans h.pioWired)]

theorem pio_tidy : h.pio.Tidy := by
  have hentries := h.pio_entries
  refine ⟨?_, ?_, ?_⟩ <;> rw [hentries] <;> decide

theorem lookup_serial {addr : BitVec 64} (ha : 0x3F8 ≤ addr.toNat ∧ addr.toNat < 0x400) :
    h.pio.lookup addr = some (COM1_BASE, .serial) :=
  (Bus.lookup_iff h.pio_tidy).mpr ⟨com1, by rw [h.pio_entries]; exact List.mem_cons_self, rfl, rfl, ha⟩

theorem lookup_bootReady {addr : BitVec 64} (ha : addr.toNat = 0x510) :
    h.pio.lookup addr = some (BOOT_READY_PORT, .bootReady) := by
  refine (Bus.lookup_iff h.pio_tidy).mpr ⟨bootReady, by rw [h.pio_entries]; simp, rfl, rfl, ?_⟩
  show 0x510 ≤ addr.toNat ∧ addr.toNat < 0x511
  omega

theorem lookup_aside {port : BitVec 16} (ha : Aside port) : h.pio.lookup (port.setWidth 64) = none := by
  have hport : (port.setWidth 64).toNat = port.toNat := by
    rw [BitVec.toNat_setWidth]
    exact Nat.mod_eq_of_lt (lt_of_lt_of_le port.isLt (by decide))
  cases hl : h.pio.lookup (port.setWidth 64) with
  | none => rfl
  | some p =>
      obtain ⟨e, he, -, -, hcov⟩ := (Bus.lookup_iff h.pio_tidy).mp (show _ = some (p.1, p.2) from hl)
      rw [h.pio_entries] at he
      rw [Entry.Covers, hport] at hcov
      obtain rfl | rfl : e = com1 ∨ e = bootReady := by simpa using he
      · exact absurd hcov ha.1
      · have : 0x510 ≤ port.toNat ∧ port.toNat < 0x511 := hcov
        exact absurd (by omega) ha.2

/-! ## One turn -/

/-- Under the flag the report was printed exactly when the signal was seen. -/
def Calm (v : VmmRun ξ) : Prop := h.reportSpawn = true → v.reported = v.ports.readyCell.isSome

/-- The line of the report, once there is one. -/
def lineOf (v : VmmRun ξ) : List UInt8 :=
  if h.reportSpawn then (v.ports.readyCell.map h.reportLine).getD [] else []

/-- What the rest of a run sees of the two devices. -/
structure Moves (v v' : VmmRun ξ) (out : List UInt8) (dlab signalled : Bool) : Prop where
  calm : h.Calm v'
  stdout : v'.ports.stdout = v.ports.stdout ++ out
  dlab : v'.ports.serial.dlab = dlab
  signalled : v'.ports.readyCell.isSome = signalled
  kept : ∀ t, v.ports.readyCell = some t → v'.ports.readyCell = some t

theorem maybeReportSpawn_calm {v : VmmRun ξ} (hc : h.Calm v) : h.maybeReportSpawn v = v := by
  rw [maybeReportSpawn]
  cases hflag : h.reportSpawn with
  | false => rfl
  | true =>
      have hrep := hc hflag
      cases hcell : v.ports.readyCell <;> simp_all

theorem turn_foreign {v : VmmRun ξ} (hc : h.Calm v) (i : Nat) {r : KvmRun} (hr : Foreign r) :
    h.Moves v (h.turn i v r).2 [] v.ports.serial.dlab v.ports.readyCell.isSome := by
  -- No port of another device is looked up.
  have hsame : ∀ v' : VmmRun ξ, v'.ports.serial = v.ports.serial → v'.ports.stdout = v.ports.stdout →
      v'.ports.readyCell = v.ports.readyCell → v'.reported = v.reported →
      h.Moves v (h.maybeReportSpawn v') [] v.ports.serial.dlab v.ports.readyCell.isSome := by
    intro v' hs ho hcell hrep
    have hc' : h.Calm v' := by rw [Calm, hrep, hcell]; exact hc
    rw [h.maybeReportSpawn_calm hc']
    exact ⟨hc', by rw [ho, List.append_nil], by rw [hs], by rw [hcell], fun t ht => hcell.trans ht⟩
  cases r with
  | error e => exact ⟨hc, (List.append_nil _).symm, rfl, rfl, fun _ ht => ht⟩
  | ok x =>
      cases x with
      | ioIn port n =>
          have hread : ∀ ports, h.pio.read portDevice ports (port.setWidth 64) n =
              (List.replicate n 0xFF, ports) := by
            intro ports
            rw [Bus.read, h.lookup_aside hr]
          refine hsame (h.dispatch i v (.ioIn port n)).2 ?_ ?_ ?_ rfl <;> rw [dispatch, hread]
      | ioOut port data =>
          have hwrite : ∀ ports, h.pio.write portDevice ports (port.setWidth 64) data = ports := by
            intro ports
            rw [Bus.write, h.lookup_aside hr]
          refine hsame (h.dispatch i v (.ioOut port data)).2 ?_ ?_ ?_ rfl <;> rw [dispatch, hwrite]
      | mmioRead addr n => exact hsame _ rfl rfl rfl rfl
      | mmioWrite addr data => exact hsame _ rfl rfl rfl rfl
      | unhandled => exact hsame _ rfl rfl rfl rfl
      | hlt | shutdown | systemEvent _ | failEntry _ _ | internalError => exact hr.elim

/-- The transmitter is always ready. -/
theorem thre_lineStatus (s : Serial) : s.lineStatus &&& LSR_THRE != 0 := by
  rw [Serial.lineStatus]
  split <;> decide

theorem turn_poll {v : VmmRun ξ} (hc : h.Calm v) (i : Nat) :
    Insn.done .poll (h.turn i v (Insn.exit .poll)).1 = true ∧
      h.Moves v (h.turn i v (Insn.exit .poll)).2 [] v.ports.serial.dlab v.ports.readyCell.isSome := by
  have hread : ∀ ports, h.pio.read portDevice ports ((Reg.port .lsr).setWidth 64) 1 =
      ([ports.serial.lineStatus], ports) := by
    intro ports
    rw [Bus.read, h.lookup_serial (by decide)]
    rfl
  have hturn : h.turn i v (Insn.exit .poll) = ([v.ports.serial.lineStatus],
      h.maybeReportSpawn { v with ports := { v.ports with now := h.instant i } }) := by
    rw [Insn.exit, turn, dispatch, hread]
  rw [hturn]
  have hc' : h.Calm { v with ports := { v.ports with now := h.instant i } } := hc
  rw [h.maybeReportSpawn_calm hc']
  exact ⟨thre_lineStatus _, hc', (List.append_nil _).symm, rfl, rfl, fun _ ht => ht⟩

/-- A byte to a register of the UART. -/
theorem write_out (reg : Reg) (val : UInt8) (ports : Ports) :
    h.pio.write portDevice ports (reg.port.setWidth 64) [val] =
      serialDevice.write ports (reg.port.setWidth 64 - COM1_BASE) [val] := by
  rw [Bus.write, h.lookup_serial (by cases reg <;> decide)]
  rfl

theorem port_offset (reg : Reg) : (reg.port.setWidth 64 - COM1_BASE).toNat =
    match reg with
    | .thr => 0
    | .ier => 1
    | .fcr => 2
    | .lcr => 3
    | .mcr => 4
    | .lsr => 5 := by
  cases reg <;> decide

theorem serial_write (ports : Ports) (off : BitVec 64) (val : UInt8) :
    (serialDevice.write ports off [val]).serial = (ports.serial.writeReg val off.toNat).1 ∧
      (serialDevice.write ports off [val]).stdout = ports.stdout ++ (ports.serial.writeReg val off.toNat).2 :=
  ⟨rfl, rfl⟩

/-- The first two registers leave the line control alone. -/
theorem latched (s : Serial) (val : UInt8) :
    (s.writeReg val 0).1.dlab = s.dlab ∧ (s.writeReg val 1).1.dlab = s.dlab := by
  constructor <;> rw [Serial.writeReg] <;> split <;> rfl

theorem sent (s : Serial) (val : UInt8) :
    (s.writeReg val 0).2 = (if s.dlab then [] else [val]) ∧ (s.writeReg val 1).2 = [] := by
  constructor <;> rw [Serial.writeReg] <;> split <;> rfl

theorem stdout_write (reg : Reg) (val : UInt8) (ports : Ports) (line : List UInt8) (signalled : Bool) :
    (serialDevice.write ports (reg.port.setWidth 64 - COM1_BASE) [val]).stdout =
      ports.stdout ++ Insn.emits line ports.serial.dlab signalled (.out reg val) := by
  rw [(serial_write _ _ _).2, port_offset]
  cases reg with
  | thr => exact congrArg (ports.stdout ++ ·) (sent _ _).1
  | ier => exact congrArg (ports.stdout ++ ·) (sent _ _).2
  | fcr | lcr | mcr | lsr => rfl

theorem dlab_write (reg : Reg) (val : UInt8) (ports : Ports) :
    (serialDevice.write ports (reg.port.setWidth 64 - COM1_BASE) [val]).serial.dlab =
      Insn.latch ports.serial.dlab (.out reg val) := by
  rw [(serial_write _ _ _).1, port_offset]
  cases reg with
  | thr => exact (latched _ _).1
  | ier => exact (latched _ _).2
  | fcr | lcr | mcr | lsr => rfl

theorem turn_out {v : VmmRun ξ} (hc : h.Calm v) (i : Nat) (reg : Reg) (val : UInt8) (line : List UInt8) :
    h.Moves v (h.turn i v (Insn.exit (.out reg val))).2
      (Insn.emits line v.ports.serial.dlab v.ports.readyCell.isSome (.out reg val))
      (Insn.latch v.ports.serial.dlab (.out reg val)) v.ports.readyCell.isSome := by
  generalize hp : serialDevice.write { v.ports with now := h.instant i } (reg.port.setWidth 64 - COM1_BASE) [val] = p
  have hturn : (h.turn i v (Insn.exit (.out reg val))).2 = h.maybeReportSpawn { v with ports := p } := by
    rw [Insn.exit, turn, dispatch, write_out, hp]
  have hc' : h.Calm { v with ports := p } := hp ▸ hc
  rw [hturn, h.maybeReportSpawn_calm hc']
  subst hp
  exact ⟨hc', stdout_write _ _ _ _ _, dlab_write _ _ _, rfl, fun _ ht => ht⟩

theorem turn_signal {v : VmmRun ξ} (hc : h.Calm v) (i : Nat) :
    h.Moves v (h.turn i v (Insn.exit .signal)).2
      (if v.ports.readyCell.isSome then [] else h.lineOf (h.turn i v (Insn.exit .signal)).2)
      v.ports.serial.dlab true := by
  have hwrite : ∀ ports, h.pio.write portDevice ports ((0x510 : BitVec 16).setWidth 64) [0] =
      { ports with readyCell := some (ports.readyCell.getD ports.now) } := by
    intro ports
    rw [Bus.write, h.lookup_bootReady (by decide)]
    rfl
  have hturn : (h.turn i v (Insn.exit .signal)).2 = h.maybeReportSpawn { v with ports :=
      { v.ports with now := h.instant i, readyCell := some (v.ports.readyCell.getD (h.instant i)) } } := by
    rw [Insn.exit, turn, dispatch, hwrite]
  rw [hturn]
  cases hcell : v.ports.readyCell with
  | some t =>
      have hc' : h.Calm { v with ports := { v.ports with now := h.instant i, readyCell := some t } } :=
        fun hflag => (hc hflag).trans (by rw [hcell])
      rw [Option.getD_some, h.maybeReportSpawn_calm hc']
      exact ⟨hc', (List.append_nil _).symm, rfl, rfl, fun _ ht => hcell.symm.trans ht⟩
  | none =>
      rw [Option.getD_none]
      cases hflag : h.reportSpawn with
      | false =>
          have hc' : ∀ v' : VmmRun ξ, h.Calm v' := fun v' hr => absurd (hflag.symm.trans hr) Bool.false_ne_true
          rw [h.maybeReportSpawn_calm (hc' _), lineOf, hflag]
          exact ⟨hc' _, (List.append_nil _).symm, rfl, rfl, fun _ ht => absurd (hcell.symm.trans ht).symm (Option.some_ne_none _)⟩
      | true =>
          have hrep : v.reported = false := (hc hflag).trans (by rw [hcell]; rfl)
          rw [maybeReportSpawn, hflag, hrep, lineOf, hflag]
          exact ⟨fun _ => rfl, rfl, rfl, rfl, fun _ ht => absurd (hcell.symm.trans ht).symm (Option.some_ne_none _)⟩

/-! ## The loop -/

/-- The clock and the budget leave room for `n` more exits and the last one. -/
def InTime (left i n : Nat) : Prop := n < left ∧ ∀ j, j ≤ n → h.late (i + j) = false

theorem inTime_succ {left i n : Nat} (hlate : h.late i = false) :
    h.InTime (left + 1) i (n + 1) ↔ h.InTime left (i + 1) n := by
  rw [InTime, InTime, Nat.add_lt_add_iff_right]
  refine and_congr_right fun _ => ⟨fun hall j hj => ?_, fun hall j hj => ?_⟩
  · rw [show i + 1 + j = i + (j + 1) by omega]
    exact hall (j + 1) (by omega)
  · cases j with
    | zero => exact hlate
    | succ j =>
        rw [show i + (j + 1) = i + 1 + j by omega]
        exact hall j (by omega)

/-- What a run is to leave, from `v` on. -/
structure Shows (v : VmmRun ξ) (p : List Insn) (o : Outcome) (inTime : Prop) (res : Outcome × VmmRun ξ) : Prop where
  kept : ∀ t, v.ports.readyCell = some t → res.2.ports.readyCell = some t
  ends : inTime → res.1 = o ∧ res.2.ports.stdout = v.ports.stdout ++
    emitted (h.lineOf res.2) v.ports.serial.dlab v.ports.readyCell.isSome p
  stops : ¬ inTime → (res.1 = .timeout ∨ res.1 = .exitBudget) ∧ ∃ out, res.2.ports.stdout = v.ports.stdout ++ out ∧
    out <+: emitted (h.lineOf res.2) v.ports.serial.dlab v.ports.readyCell.isSome p

/-- A run that is over before it starts. -/
theorem shows_stop {v : VmmRun ξ} {p : List Insn} {o o' : Outcome} {inTime : Prop} (hnot : ¬ inTime)
    (ho : o' = .timeout ∨ o' = .exitBudget) : h.Shows v p o inTime (o', v) :=
  ⟨fun _ ht => ht, fun hin => absurd hin hnot, fun _ => ⟨ho, [], (List.append_nil _).symm, List.nil_prefix⟩⟩

variable {h}

/-- One turn in front of a run. -/
theorem Shows.after {v v' : VmmRun ξ} {p p' : List Insn} {o : Outcome} {P P' : Prop} {res : Outcome × VmmRun ξ}
    {out : List UInt8} {dlab signalled : Bool} (hm : h.Moves v v' out dlab signalled) (hs : h.Shows v' p' o P' res)
    (hP : P ↔ P') (hout : emitted (h.lineOf res.2) v.ports.serial.dlab v.ports.readyCell.isSome p =
      out ++ emitted (h.lineOf res.2) dlab signalled p') : h.Shows v p o P res := by
  have hbytes : ∀ rest, v'.ports.stdout ++ rest = v.ports.stdout ++ (out ++ rest) := fun rest => by
    rw [hm.stdout, List.append_assoc]
  refine ⟨fun t ht => hs.kept t (hm.kept t ht), fun hin => ?_, fun hnot => ?_⟩
  · obtain ⟨ho, hstd⟩ := hs.ends (hP.mp hin)
    rw [hm.dlab, hm.signalled, hbytes, ← hout] at hstd
    exact ⟨ho, hstd⟩
  · obtain ⟨ho, rest, hstd, hrest⟩ := hs.stops (mt hP.mpr hnot)
    rw [hm.dlab, hm.signalled] at hrest
    refine ⟨ho, out ++ rest, hstd.trans (hbytes rest), ?_⟩
    rw [hout]
    exact (List.prefix_append_right_inj out).mpr hrest

variable (h)

/-- An instruction of the driver takes one turn. -/
theorem own_moves {v : VmmRun ξ} (hc : h.Calm v) (i : Nat) {x : Insn} (hx : x.own = true) :
    ending x.exit = none ∧ x.done (h.turn i v x.exit).1 = true ∧
      ∀ res : VmmRun ξ, (∀ t, (h.turn i v x.exit).2.ports.readyCell = some t → res.ports.readyCell = some t) →
        h.Moves v (h.turn i v x.exit).2 (x.emits (h.lineOf res) v.ports.serial.dlab v.ports.readyCell.isSome)
          (x.latch v.ports.serial.dlab) (x.signals v.ports.readyCell.isSome) := by
  cases x with
  | poll => exact ⟨rfl, (h.turn_poll hc i).1, fun _ _ => (h.turn_poll hc i).2⟩
  | out reg val => exact ⟨rfl, rfl, fun _ _ => h.turn_out hc i reg val _⟩
  | signal =>
      refine ⟨rfl, rfl, fun res hres => ?_⟩
      have hm := h.turn_signal hc i
      -- The stamp is there from now on, so the report's line is the same at the end.
      obtain ⟨t, ht⟩ := Option.isSome_iff_exists.mp hm.signalled
      have hline : h.lineOf res = h.lineOf (h.turn i v (Insn.exit .signal)).2 := by
        rw [lineOf, lineOf, hres t ht, ht]
      rw [hline]
      exact hm
  | other r => cases hx

theorem ending_foreign {r : KvmRun} (hr : Foreign r) : ending r = none := by
  cases r with
  | error e => exact if_pos hr
  | ok x => cases x <;> first | rfl | exact hr.elim

section Turns

variable {ι : Type} {exit : ι → KvmRun} {done : ι → List UInt8 → Bool} {last : KvmRun} {left i : Nat} {v : VmmRun ξ}

theorem loop_late (hlate : h.late i = true) (script : List ι) :
    (h.loop exit done last left i v script) = (.timeout, v) := by
  cases left with
  | zero => rw [loop, hlate]; rfl
  | succ left => rw [loop, hlate]; rfl

theorem loop_last (hlate : h.late i = false) {o : Outcome} (ho : ending last = some o) :
    h.loop exit done last (left + 1) i v [] = (o, v) := by
  rw [loop, hlate]
  simp [ho]

theorem loop_turn (hlate : h.late i = false) {x : ι} (hend : ending (exit x) = none)
    (hdone : done x (h.turn i v (exit x)).1 = true) (rest : List ι) :
    h.loop exit done last (left + 1) i v (x :: rest) =
      h.loop exit done last left (i + 1) (h.turn i v (exit x)).2 rest := by
  rw [loop, hlate]
  simp [hend, hdone]

end Turns

/-- The loop over a woven program; each instruction of the driver, and each foreign exit, is one
turn. -/
theorem loop_shows {last : KvmRun} {o : Outcome} (ho : ending last = some o) {p w : List Insn} (hw : Weave p w) :
    ∀ (left i : Nat) {v : VmmRun ξ}, h.Calm v →
      h.Shows v p o (h.InTime left i w.length) (h.loop Insn.exit Insn.done last left i v w) := by
  intro left
  induction left generalizing p w with
  | zero =>
      intro i v _
      refine h.shows_stop (fun hin => absurd hin.1 (Nat.not_lt_zero _)) ?_
      show (if h.late i then _ else _) = _ ∨ _
      cases h.late i
      · exact .inr rfl
      · exact .inl rfl
  | succ left ih =>
      intro i v hc
      cases hlate : h.late i with
      | true =>
          rw [h.loop_late hlate]
          refine h.shows_stop (fun hin => ?_) (.inl rfl)
          exact absurd ((hin.2 0 (Nat.zero_le _)).symm.trans hlate) Bool.false_ne_true
      | false =>
          cases hw with
          | nil =>
              have hin : h.InTime (left + 1) i 0 := ⟨Nat.succ_pos _, fun j hj => by rw [Nat.le_zero.mp hj]; exact hlate⟩
              rw [h.loop_last hlate ho]
              exact ⟨fun _ ht => ht, fun _ => ⟨rfl, (List.append_nil _).symm⟩, fun hnot => absurd hin hnot⟩
          | @own x p w hx hw =>
              obtain ⟨hend, hdone, hm⟩ := h.own_moves hc i hx
              rw [h.loop_turn hlate hend hdone]
              have hs := ih hw (i + 1) (hm _ fun _ ht => ht).calm
              exact hs.after (hm _ hs.kept) (h.inTime_succ hlate) rfl
          | @other r p w hr hw =>
              have hm := h.turn_foreign hc i hr
              rw [h.loop_turn hlate (ending_foreign hr) rfl]
              exact (ih hw (i + 1) hm.calm).after hm (h.inTime_succ hlate) rfl

theorem exitCode_eq_zero {o : Outcome} : exitCode o = 0 ↔ o = .halted := by
  cases o <;> simp [exitCode]

/-- Any calls of the kernel, woven with anything foreign, under any clock: what the run ends
with, what the host's stdout holds and the exit code. -/
theorem console_exact (xport : ξ) (cs : List Call) {w : List Insn} (hw : Weave (compile false cs) w) {last : KvmRun}
    {o : Outcome} (ho : ending last = some o) :
    let res := h.run xport Insn.exit Insn.done w last
    let seen := transcript (h.lineOf res.2) false false cs
    (h.InTime MAX_EXITS 0 w.length → res.1 = o ∧ res.2.ports.stdout = seen) ∧
      (¬ h.InTime MAX_EXITS 0 w.length → (res.1 = .timeout ∨ res.1 = .exitBudget) ∧ res.2.ports.stdout <+: seen) ∧
      (exitCode res.1 = 0 ↔ h.InTime MAX_EXITS 0 w.length ∧ o = .halted) := by
  intro res seen
  have hs : h.Shows _ (compile false cs) o (h.InTime MAX_EXITS 0 w.length) res :=
    h.loop_shows ho hw MAX_EXITS 0 (v := ⟨.new, xport, false⟩) fun _ => rfl
  have hdlab : Ports.new.serial.dlab = false := by decide
  have hseen : emitted (h.lineOf res.2) Ports.new.serial.dlab false (compile false cs) = seen := by
    rw [hdlab]
    exact emitted_compile cs false
  have hends : h.InTime MAX_EXITS 0 w.length → res.1 = o ∧ res.2.ports.stdout = seen := fun hin => by
    obtain ⟨ho, hstd⟩ := hs.ends hin
    exact ⟨ho, hstd.trans ((List.nil_append _).trans hseen)⟩
  have hstops : ¬ h.InTime MAX_EXITS 0 w.length →
      (res.1 = .timeout ∨ res.1 = .exitBudget) ∧ res.2.ports.stdout <+: seen := fun hnot => by
    obtain ⟨ho, out, hstd, hout⟩ := hs.stops hnot
    rw [hstd.trans (List.nil_append out), ← hseen]
    exact ⟨ho, hout⟩
  refine ⟨hends, hstops, ?_⟩
  rw [exitCode_eq_zero]
  by_cases hin : h.InTime MAX_EXITS 0 w.length
  · rw [(hends hin).1, and_iff_right hin]
  · refine iff_of_false (fun hres => ?_) fun hcon => hin hcon.1
    rcases (hstops hin).1 with ht | ht <;> rw [ht] at hres <;> cases hres

/-- A host whose clock stands still. -/
def idleHost : Host Unit where
  reportSpawn := true
  phases := ⟨0, 1, 2, 3, 4⟩
  late _ := false
  instant i := i
  pio := ⟨[com1, bootReady], by simp [Span.Sorted]; decide⟩
  mmio := ⟨[⟨XPORT_MMIO_BASE, XPORT_MMIO_LEN, ()⟩], by simp [Span.Sorted]⟩
  xport := ⟨fun s _ n => (List.replicate n 0, s), fun s _ _ => s⟩
  pioWired := rfl
  mmioWired := rfl

/-- "Hi", a write to the MMIO device after the first letter, and the signal. -/
theorem console_exact_hi :
    let calls : List Call := [.serialInit, .serialWriteByte 0x48, .serialWriteByte 0x69, .bootReadySignal]
    let w := compile false (calls.take 2) ++ .other (.ok (.mmioWrite 0xFEB00050 [0, 0, 0, 0])) ::
      compile false (calls.drop 2)
    let res := idleHost.run () Insn.exit Insn.done w (.ok .hlt)
    let seen := transcript (idleHost.lineOf res.2) false false calls
    ((idleHost.InTime MAX_EXITS 0 w.length → res.1 = .halted ∧ res.2.ports.stdout = seen) ∧
      (¬ idleHost.InTime MAX_EXITS 0 w.length →
        (res.1 = .timeout ∨ res.1 = .exitBudget) ∧ res.2.ports.stdout <+: seen) ∧
      (exitCode res.1 = 0 ↔ idleHost.InTime MAX_EXITS 0 w.length ∧ Outcome.halted = .halted)) ∧
      exitCode res.1 = 0 ∧ res.2.ports.stdout = seen ∧ [0x48, 0x69] <+: seen := by
  intro calls w res seen
  have hw : Weave (compile false calls) w := by
    repeat (first | exact .nil | refine .own rfl ?_ | refine .other trivial ?_)
  have h := idleHost.console_exact () calls hw (show ending (.ok .hlt) = some .halted from rfl)
  have hin : idleHost.InTime MAX_EXITS 0 w.length := ⟨by decide, fun _ _ => rfl⟩
  exact ⟨h, h.2.2.mpr ⟨hin, rfl⟩, (h.1 hin).2, ⟨_, rfl⟩⟩

end Host

end Yuva.Vmm
