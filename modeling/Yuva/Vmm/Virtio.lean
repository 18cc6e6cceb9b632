/-
# `Yuva.Vmm.Virtio` — the console transport

`tb-vmm/src/virtio_mmio.rs`: two virtqueues in guest memory, walked while the guest is
stopped in the access that notified them.

    notify 1    process_tx, then drain_rx
    notify 0    drain_rx

Each of the two is a loop; `processTx` and `drainRx` here are one turn of it, and `Machine`
runs them: from `idle` the guest acts, in either loop the next thing is a turn.  The loops
read the avail index again in every turn, from memory that the device itself writes.

The peer behind the transport is a parameter: what it puts out on the bytes it is fed.
`Machine` also keeps what the statements are about and no code reads: the bytes the peer put
out, the bytes of published receive entries, and the avail indices taken since the reset.

Reads of the registers are left out: they change nothing.
-/
import Yuva.Vmm.Memory

namespace Yuva.Vmm

open Yuva.Bytes Yuva.Overlay

/-! ## Registers -/

namespace R

def DEVICE_FEATURES_SEL : Nat := 0x014
def DRIVER_FEATURES : Nat := 0x020
def DRIVER_FEATURES_SEL : Nat := 0x024
def QUEUE_SEL : Nat := 0x030
def QUEUE_NUM : Nat := 0x038
def QUEUE_READY : Nat := 0x044
def QUEUE_NOTIFY : Nat := 0x050
def STATUS : Nat := 0x070
def QUEUE_DESC_LOW : Nat := 0x080
def QUEUE_DESC_HIGH : Nat := 0x084
def QUEUE_DRIVER_LOW : Nat := 0x090
def QUEUE_DRIVER_HIGH : Nat := 0x094
def QUEUE_DEVICE_LOW : Nat := 0x0A0
def QUEUE_DEVICE_HIGH : Nat := 0x0A4

end R

def VIRTIO_F_VERSION_1_HI : BitVec 32 := 1
def S_FEATURES_OK : BitVec 32 := 8
def S_DRIVER_OK : BitVec 32 := 4
def VIRTQ_DESC_F_NEXT : BitVec 16 := 1
def VIRTQ_DESC_F_WRITE : BitVec 16 := 2
def QUEUE_NUM_MAX : Nat := 4

/-- The receive queue and the transmit queue. -/
inductive QueueId where
  | rxq
  | txq
  deriving DecidableEq, Repr

def RXQ : BitVec 32 := 0
def TXQ : BitVec 32 := 1

structure QueueState where
  num : Nat
  ready : Bool
  desc : BitVec 64
  driver : BitVec 64
  device : BitVec 64
  nextAvail : BitVec 16
  usedCount : BitVec 16
  num_le : num ≤ QUEUE_NUM_MAX
  deriving DecidableEq, Repr

namespace QueueState

def default : QueueState := ⟨0, false, 0, 0, 0, 0, 0, by decide⟩

def setAddr (addr : BitVec 64) (half : BitVec 32) (high : Bool) : BitVec 64 :=
  if high then (addr &&& 0xFFFFFFFF) ||| (half.setWidth 64 <<< 32)
  else (addr &&& ~~~0xFFFFFFFF) ||| (half.setWidth 64 &&& 0xFFFFFFFF)

/-- A power of two within the offered maximum; any other size leaves the queue unusable. -/
def setNum (q : QueueState) (v : BitVec 32) : QueueState :=
  if h : 1 ≤ v.toNat ∧ v.toNat ≤ QUEUE_NUM_MAX ∧ v &&& (v - 1) = 0 then { q with num := v.toNat, num_le := h.2.1 }
  else { q with num := 0, num_le := Nat.zero_le _ }

def availIdxAddr (q : QueueState) : BitVec 64 := q.driver + 2

/-- The ring entry at the counter of consumed ones. -/
def availRingAddr (q : QueueState) : BitVec 64 := q.driver + .ofNat 64 (4 + 2 * (q.nextAvail.toNat % q.num))

def usedIdxAddr (q : QueueState) : BitVec 64 := q.device + 2

/-- The ring entry at the counter of published ones. -/
def usedEntryAddr (q : QueueState) : BitVec 64 := q.device + .ofNat 64 (4 + 8 * (q.usedCount.toNat % q.num))

end QueueState

/-! ## Guest memory -/

section Access

variable {V : VmMemory}

/-- A little-endian word of `n` bytes. -/
def readWord (w n : Nat) (m : V.GuestMemoryMmap) (gpa : BitVec 64) : Option (BitVec w) :=
  match V.readSlice m gpa.toNat n with
  | .ok bs => some (.ofNat w (unle bs))
  | .error _ => none

def readU16 : V.GuestMemoryMmap → BitVec 64 → Option (BitVec 16) := readWord 16 2

def readU32 : V.GuestMemoryMmap → BitVec 64 → Option (BitVec 32) := readWord 32 4

def readU64 : V.GuestMemoryMmap → BitVec 64 → Option (BitVec 64) := readWord 64 8

/-- Whether the write succeeded, and the memory after it. -/
def writeBytes (m : V.GuestMemoryMmap) (gpa : BitVec 64) (bs : List UInt8) : Bool × V.GuestMemoryMmap :=
  ((V.writeSlice m bs gpa.toNat).1.isOk, (V.writeSlice m bs gpa.toNat).2)

def writeU16 (m : V.GuestMemoryMmap) (gpa : BitVec 64) (v : BitVec 16) : Bool × V.GuestMemoryMmap :=
  writeBytes m gpa (le 2 v.toNat)

def writeU32 (m : V.GuestMemoryMmap) (gpa : BitVec 64) (v : BitVec 32) : Bool × V.GuestMemoryMmap :=
  writeBytes m gpa (le 4 v.toNat)

structure Descriptor where
  addr : BitVec 64
  len : BitVec 32
  flags : BitVec 16
  next : BitVec 16
  deriving DecidableEq, Repr

namespace Descriptor

def writable (d : Descriptor) : Bool := d.flags &&& VIRTQ_DESC_F_WRITE ≠ 0

def hasNext (d : Descriptor) : Bool := d.flags &&& VIRTQ_DESC_F_NEXT ≠ 0

/-- What a writable descriptor takes of the pending bytes. -/
def chunk (d : Descriptor) (out : List UInt8) : List UInt8 := if d.writable then out.take d.len.toNat else []

def rest (d : Descriptor) (out : List UInt8) : List UInt8 := if d.writable then out.drop d.len.toNat else out

end Descriptor

def readDescriptor (m : V.GuestMemoryMmap) (q : QueueState) (idx : BitVec 16) : Option Descriptor := do
  let d := q.desc + 16 * idx.setWidth 64
  let addr ← readU64 m d
  let len ← readU32 m (d + 8)
  let flags ← readU16 m (d + 12)
  let next ← readU16 m (d + 14)
  return ⟨addr, len, flags, next⟩

/-- The readable bytes of the chain at `idx`, over `hops` more descriptors at most. -/
def gatherReadable (m : V.GuestMemoryMmap) (q : QueueState) : Nat → BitVec 16 → Option (List UInt8)
  | 0, _ => none
  | hops + 1, idx =>
      match readDescriptor m q idx with
      | none => none
      | some d =>
          let segment := if d.writable then .ok [] else V.readSlice m d.addr.toNat d.len.toNat
          match segment with
          | .error _ => none
          | .ok buf =>
              if d.hasNext then (gatherReadable m q hops d.next).map (buf ++ ·) else some buf

/-- A walk that fills a chain: whether it ended well, the memory after it, the bytes it took
from the peer and those still pending. -/
structure Scattered (V : VmMemory) where
  ended : Bool
  mem : V.GuestMemoryMmap
  taken : List UInt8
  pending : List UInt8

/-- Nothing is written once nothing is pending. -/
def fill (m : V.GuestMemoryMmap) (d : Descriptor) (out : List UInt8) : Bool × V.GuestMemoryMmap :=
  if d.writable && !out.isEmpty then writeBytes m d.addr (d.chunk out) else (true, m)

/-- The chain at `idx`, over `hops` more descriptors at most.  Bytes are taken from the peer
before they are written. -/
def scatterWritable (q : QueueState) : Nat → V.GuestMemoryMmap → BitVec 16 → List UInt8 → Scattered V
  | 0, m, _, out => ⟨false, m, [], out⟩
  | hops + 1, m, idx, out =>
      match readDescriptor m q idx with
      | none => ⟨false, m, [], out⟩
      | some d =>
          match fill m d out with
          | (false, m) => ⟨false, m, d.chunk out, d.rest out⟩
          | (true, m) =>
              if !d.hasNext || (d.rest out).isEmpty then ⟨true, m, d.chunk out, d.rest out⟩
              else
                let r := scatterWritable q hops m d.next (d.rest out)
                { r with taken := d.chunk out ++ r.taken }

/-- Whether the entry became visible, and the queue and the memory after it. -/
def publishUsed (m : V.GuestMemoryMmap) (q : QueueState) (id len : BitVec 32) :
    Bool × QueueState × V.GuestMemoryMmap :=
  match writeU32 m q.usedEntryAddr id with
  | (false, m) => (false, q, m)
  | (true, m) =>
      match writeU32 m (q.usedEntryAddr + 4) len with
      | (false, m) => (false, q, m)
      | (true, m) =>
          let q := { q with usedCount := q.usedCount + 1 }
          let (ok, m) := writeU16 m q.usedIdxAddr q.usedCount
          (ok, q, m)

end Access

/-! ## The device -/

/-- The peer behind the transport: its state, and what it puts out on the bytes it is fed. -/
structure HostPeer where
  State : Type
  pushGuestBytes : State → List UInt8 → State × List UInt8

structure VirtioMmio (V : VmMemory) (P : HostPeer) where
  mem : V.GuestMemoryMmap
  host : P.State
  outbuf : List UInt8
  status : BitVec 32
  deviceFeaturesSel : BitVec 32
  driverFeaturesSel : BitVec 32
  driverFeatures : BitVec 32 × BitVec 32
  queueSel : BitVec 32
  queues : QueueId → QueueState

namespace VirtioMmio

variable {V : VmMemory} {P : HostPeer}

def new (mem : V.GuestMemoryMmap) (host : P.State) : VirtioMmio V P :=
  ⟨mem, host, [], 0, 0, 0, (0, 0), 0, fun _ => .default⟩

/-- The transport starts over; the peer does not. -/
def reset (d : VirtioMmio V P) : VirtioMmio V P := { new d.mem d.host with outbuf := d.outbuf }

def setQueue (d : VirtioMmio V P) (i : QueueId) (q : QueueState) : VirtioMmio V P :=
  { d with queues := Function.update d.queues i q }

/-- A change to the selected queue, if there is one. -/
def onSelected (d : VirtioMmio V P) (f : QueueState → QueueState) : VirtioMmio V P :=
  if d.queueSel = RXQ then d.setQueue .rxq (f (d.queues .rxq))
  else if d.queueSel = TXQ then d.setQueue .txq (f (d.queues .txq))
  else d

/-- Anything but the offered features clears the bit. -/
def featuresChecked (d : VirtioMmio V P) (v : BitVec 32) : BitVec 32 :=
  if v &&& S_FEATURES_OK ≠ 0 ∧ d.driverFeatures ≠ (0, VIRTIO_F_VERSION_1_HI) then v &&& ~~~S_FEATURES_OK else v

/-- A write to any register but `QUEUE_NOTIFY`. -/
def writeReg (d : VirtioMmio V P) (offset : Nat) (v : BitVec 32) : VirtioMmio V P :=
  if offset = R.DEVICE_FEATURES_SEL then { d with deviceFeaturesSel := v }
  else if offset = R.DRIVER_FEATURES then
    if d.driverFeaturesSel = 0 then { d with driverFeatures := (v, d.driverFeatures.2) }
    else if d.driverFeaturesSel = 1 then { d with driverFeatures := (d.driverFeatures.1, v) }
    else d
  else if offset = R.DRIVER_FEATURES_SEL then { d with driverFeaturesSel := v }
  else if offset = R.QUEUE_SEL then { d with queueSel := v }
  else if offset = R.QUEUE_NUM then d.onSelected (·.setNum v)
  else if offset = R.QUEUE_READY then d.onSelected fun q => { q with ready := v &&& 1 = 1 }
  else if offset = R.STATUS then if v = 0 then d.reset else { d with status := d.featuresChecked v }
  else if offset = R.QUEUE_DESC_LOW then
    d.onSelected fun q => { q with desc := QueueState.setAddr q.desc v false }
  else if offset = R.QUEUE_DESC_HIGH then
    d.onSelected fun q => { q with desc := QueueState.setAddr q.desc v true }
  else if offset = R.QUEUE_DRIVER_LOW then
    d.onSelected fun q => { q with driver := QueueState.setAddr q.driver v false }
  else if offset = R.QUEUE_DRIVER_HIGH then
    d.onSelected fun q => { q with driver := QueueState.setAddr q.driver v true }
  else if offset = R.QUEUE_DEVICE_LOW then
    d.onSelected fun q => { q with device := QueueState.setAddr q.device v false }
  else if offset = R.QUEUE_DEVICE_HIGH then
    d.onSelected fun q => { q with device := QueueState.setAddr q.device v true }
  else d

/-- The head of the next posted chain, if the queue is in use and has one. -/
def posted (d : VirtioMmio V P) (i : QueueId) : Option (BitVec 16) := do
  let q := d.queues i
  if !q.ready || q.num = 0 then none
  else
    let availIdx ← readU16 d.mem q.availIdxAddr
    if q.nextAvail = availIdx then none else readU16 d.mem q.availRingAddr

/-- The posted chain is consumed, and a used entry published for it. -/
def complete (d : VirtioMmio V P) (i : QueueId) (head : BitVec 16) (len : BitVec 32) : Bool × VirtioMmio V P :=
  let q := { d.queues i with nextAvail := (d.queues i).nextAvail + 1 }
  let (shown, q, m) := publishUsed d.mem q (head.setWidth 32) len
  (shown, { d.setQueue i q with mem := m })

/-- One turn of `process_tx`: the device and what the peer put out; `none` when the loop returns. -/
def processTx (d : VirtioMmio V P) : Option (VirtioMmio V P × List UInt8) := do
  let head ← d.posted .txq
  let bytes ← gatherReadable d.mem (d.queues .txq) (d.queues .txq).num head
  let (host, out) := P.pushGuestBytes d.host bytes
  let (_, d) := { d with host := host, outbuf := d.outbuf ++ out }.complete .txq head 0
  return (d, out)

/-- One turn of `drain_rx`: the device, and the bytes of the used entry the guest was shown;
`none` when the loop returns.  A chain that breaks keeps what was taken for it. -/
def drainRx (d : VirtioMmio V P) : VirtioMmio V P × Option (List UInt8) :=
  if d.outbuf.isEmpty then (d, none)
  else
    match d.posted .rxq with
    | none => (d, none)
    | some head =>
        let r := scatterWritable (d.queues .rxq) (d.queues .rxq).num d.mem head d.outbuf
        let d := { d with mem := r.mem, outbuf := r.pending }
        if !r.ended then (d, none)
        else
          let len : BitVec 32 := .ofNat 32 r.taken.length
          let (shown, d) := d.complete .rxq head len
          (d, some (if shown then r.taken.take len.toNat else []))

end VirtioMmio

/-! ## Runs -/

/-- What the monitor is doing: running the guest, or in one of the loops. -/
inductive Mode where
  | idle
  | processTx
  | drainRx
  deriving DecidableEq, Repr

/-- The guest changes its memory, or writes to the device; `tick` is for the monitor's turns. -/
inductive Action (V : VmMemory) where
  | memory (m : V.GuestMemoryMmap)
  | write (offset : Nat) (data : List UInt8)
  | tick

structure Machine (V : VmMemory) (P : HostPeer) where
  dev : VirtioMmio V P
  mode : Mode
  produced : List UInt8
  delivered : List UInt8
  consumed : QueueId → List (BitVec 16)

namespace Machine

variable {V : VmMemory} {P : HostPeer}

def start (mem : V.GuestMemoryMmap) (host : P.State) : Machine V P := ⟨.new mem host, .idle, [], [], fun _ => []⟩

/-- A notification before `DRIVER_OK`, or for no queue, is ignored. -/
def notify (s : Machine V P) (q : BitVec 32) : Machine V P :=
  if s.dev.status &&& S_DRIVER_OK = 0 then s
  else if q = TXQ then { s with mode := .processTx }
  else if q = RXQ then { s with mode := .drainRx }
  else s

def writeReg (s : Machine V P) (offset : Nat) (v : BitVec 32) : Machine V P :=
  if offset = R.QUEUE_NOTIFY then s.notify v
  else
    let consumed := if offset = R.STATUS ∧ v = 0 then fun _ => [] else s.consumed
    { s with dev := s.dev.writeReg offset v, consumed := consumed }

def consume (s : Machine V P) (i : QueueId) : QueueId → List (BitVec 16) :=
  Function.update s.consumed i (s.consumed i ++ [(s.dev.queues i).nextAvail])

/-- The guest acts only while no loop runs. -/
def step (s : Machine V P) (a : Action V) : Machine V P :=
  match s.mode with
  | .idle =>
      match a with
      | .memory m => { s with dev := { s.dev with mem := m } }
      | .write offset data =>
          if data.length = 4 ∧ offset % 4 = 0 then s.writeReg offset (.ofNat 32 (unle data)) else s
      | .tick => s
  | .processTx =>
      match s.dev.processTx with
      | none => { s with mode := .drainRx }
      | some (dev, out) => { s with dev := dev, produced := s.produced ++ out, consumed := s.consume .txq }
  | .drainRx =>
      match s.dev.drainRx with
      | (dev, none) => { s with dev := dev, mode := .idle }
      | (dev, some bytes) => { s with dev := dev, delivered := s.delivered ++ bytes, consumed := s.consume .rxq }

end Machine

end Yuva.Vmm
