/-
# `Yuva.Hal.Chan` — one session over the console channel

`tb-hal/src/arch/x86_64/virtio.rs`, `chan_send_recv` and `chan_fail`: a request goes out
through the transmit queue and the response is collected from the receive queue, completion
by completion, until the caller's buffer is full.

The driver is a program over the log of what it does and the caller's buffer.  The device is
the sequence of values it shows: one for each read the driver makes, so that a device that
answers by what it has seen is covered run by run.  The receive loop has a fuel argument;
without fuel the session is `running`.

**Proved here.**  A session returns, with the log and the result that `Lawful` asks for,
unless the device keeps completing the receive buffer without ever filling the response
(`chan_bounded_iff`).  Then the session never returns (`chan_unbounded`).
Each wait gives up under `POLL_CAP`, as the comment in the source says, but nothing bounds the
number of waits: a completion of length 0 makes no progress and is answered by a new wait.
-/
import Yuva.Lib.Machine
import Yuva.Lib.Teardown
import Mathlib.Algebra.BigOperators.Group.Finset.Basic
import Mathlib.Algebra.Order.BigOperators.Group.Finset

namespace Yuva.Hal

open Yuva.Machine Yuva.Teardown

/-! ## The driver's constants -/

def SLOT_BASE_PA : Nat := 0xFEB00000
def SLOT_STRIDE : Nat := 0x200
def N_WINDOW_PAGES : Nat := 4
def VIRTIO_WINDOW_VA : Nat := 0x0000018000001000

def R_DEVICE_FEATURES : Nat := 0x010
def R_DEVICE_FEATURES_SEL : Nat := 0x014
def R_DRIVER_FEATURES : Nat := 0x020
def R_DRIVER_FEATURES_SEL : Nat := 0x024
def R_QUEUE_SEL : Nat := 0x030
def R_QUEUE_NUM_MAX : Nat := 0x034
def R_QUEUE_NUM : Nat := 0x038
def R_QUEUE_READY : Nat := 0x044
def R_QUEUE_NOTIFY : Nat := 0x050
def R_STATUS : Nat := 0x070
def R_QUEUE_DESC_LOW : Nat := 0x080
def R_QUEUE_DESC_HIGH : Nat := 0x084
def R_QUEUE_DRIVER_LOW : Nat := 0x090
def R_QUEUE_DRIVER_HIGH : Nat := 0x094
def R_QUEUE_DEVICE_LOW : Nat := 0x0A0
def R_QUEUE_DEVICE_HIGH : Nat := 0x0A4

def S_ACKNOWLEDGE : BitVec 32 := 1
def S_DRIVER : BitVec 32 := 2
def S_DRIVER_OK : BitVec 32 := 4
def S_FEATURES_OK : BitVec 32 := 8
def S_FAILED : BitVec 32 := 128
def VIRTIO_F_VERSION_1_HI : BitVec 32 := 1

def VIRTQ_DESC_F_WRITE : BitVec 16 := 2
def VIRTQ_AVAIL_F_NO_INTERRUPT : BitVec 16 := 1

def POLL_CAP : Nat := 100000000

def CHAN_RX_DESC_OFF : Nat := 0x000
def CHAN_RX_AVAIL_OFF : Nat := 0x040
def CHAN_RX_USED_OFF : Nat := 0x080
def CHAN_TX_DESC_OFF : Nat := 0x0C0
def CHAN_TX_AVAIL_OFF : Nat := 0x100
def CHAN_TX_USED_OFF : Nat := 0x140
def CHAN_TX_BUF_OFF : Nat := 0x200
def CHAN_RX_BUF_OFF : Nat := 0x400
def CHAN_Q_SIZE : BitVec 32 := 4
def CHAN_TX_BUF_CAP : Nat := 0x200
def CHAN_RX_BUF_CAP : Nat := 0xC00

/-! ## What a session does and what it sees -/

/-- An access of the driver.  `store i pa v` is `resp[i] = ram_r8(pa)`, with the byte read. -/
inductive Op where
  | regW (pa : Nat) (v : BitVec 32)
  | regR (pa : Nat)
  | ramW (width pa v : Nat)
  | ramR (width pa : Nat)
  | fence
  | alloc (frame : Nat)
  | free (frame : Nat)
  | store (i pa : Nat) (v : UInt8)
  deriving DecidableEq, Repr

/-- The log, oldest first, and the caller's buffer. -/
structure Session (n : Nat) where
  log : List Op
  resp : Vector UInt8 n

/-- How a session ends before its end: `return None`, a panic, or not at all. -/
inductive Stop where
  | none
  | panic
  | running
  deriving DecidableEq, Repr

abbrev Driver (n : Nat) := EStateM Stop (Session n)

/-- The values a device shows, each by the read that sees it: the registers by queue, the used
indices by spin, and those of the receive queue by round of its loop as well. -/
structure Device where
  features : BitVec 32
  status : BitVec 32
  numMax : Nat → BitVec 32
  ready : Nat → BitVec 32
  txIdx : Nat → BitVec 16
  rxIdx : Nat → Nat → BitVec 16
  rxLen : Nat → BitVec 32
  rxByte : Nat → Nat → UInt8

/-- What the rest of the kernel answers: each page of the window mapped or not, a frame or none. -/
structure Host where
  mapDevicePage : Nat → Nat → Bool
  frameAlloc : Option Nat

variable {n : Nat}

def emit (op : Op) : Driver n Unit := modify fun s => { s with log := s.log ++ [op] }

def returnNone {α : Type} : Driver n α := throw .none

def regWrite (dev off : Nat) (v : BitVec 32) : Driver n Unit := emit (.regW (dev + off) v)

def regRead (dev off : Nat) (answer : BitVec 32) : Driver n (BitVec 32) := do
  emit (.regR (dev + off))
  return answer

def ramW8 (pa : Nat) (v : UInt8) : Driver n Unit := emit (.ramW 8 pa v.toNat)

def ramW16 (pa : Nat) (v : BitVec 16) : Driver n Unit := emit (.ramW 16 pa v.toNat)

def ramW32 (pa : Nat) (v : BitVec 32) : Driver n Unit := emit (.ramW 32 pa v.toNat)

def ramW64 (pa v : Nat) : Driver n Unit := emit (.ramW 64 pa v)

def ramR16 (pa : Nat) (answer : BitVec 16) : Driver n (BitVec 16) := do
  emit (.ramR 16 pa)
  return answer

def ramR32 (pa : Nat) (answer : BitVec 32) : Driver n (BitVec 32) := do
  emit (.ramR 32 pa)
  return answer

def dmaFence : Driver n Unit := emit .fence

/-- `resp[i] = ram_r8(pa)`. -/
def storeResp (i pa : Nat) (answer : UInt8) : Driver n Unit := do
  emit (.ramR 8 pa)
  if h : i < n then
    modify fun s => { s with log := s.log ++ [.store i pa answer], resp := s.resp.set i answer h }
  else throw .panic

/-! ## The session -/

def mapWindow (host : Host) : Option Nat :=
  if (List.range N_WINDOW_PAGES).all fun j =>
      host.mapDevicePage (VIRTIO_WINDOW_VA + j * 0x1000) (SLOT_BASE_PA + j * 0x1000)
  then some VIRTIO_WINDOW_VA else none

def chanFail (dev frame : Nat) : Driver n Unit := do
  regWrite dev R_STATUS (S_ACKNOWLEDGE ||| S_DRIVER ||| S_FAILED)
  emit (.free frame)
  returnNone

/-- `if p { return chan_fail(dev, frame); }`. -/
def chanFailIf (dev frame : Nat) (p : Bool) : Driver n Unit := if p then chanFail dev frame else pure ()

/-- The clean slate and the request bytes. -/
def stage (frame : Nat) (req : List UInt8) : Driver n Unit := do
  (List.range (4096 / 8)).forM fun i => ramW64 (frame + 8 * i) 0
  (List.range req.length).forM fun k => ramW8 (frame + CHAN_TX_BUF_OFF + k) (req.getD k 0)

def handshake (d : Device) (dev frame : Nat) : Driver n Unit := do
  regWrite dev R_STATUS 0
  regWrite dev R_STATUS S_ACKNOWLEDGE
  regWrite dev R_STATUS (S_ACKNOWLEDGE ||| S_DRIVER)
  regWrite dev R_DEVICE_FEATURES_SEL 1
  let dfHi ← regRead dev R_DEVICE_FEATURES d.features
  chanFailIf dev frame (dfHi &&& VIRTIO_F_VERSION_1_HI == 0)
  regWrite dev R_DRIVER_FEATURES_SEL 0
  regWrite dev R_DRIVER_FEATURES 0
  regWrite dev R_DRIVER_FEATURES_SEL 1
  regWrite dev R_DRIVER_FEATURES VIRTIO_F_VERSION_1_HI
  regWrite dev R_STATUS (S_ACKNOWLEDGE ||| S_DRIVER ||| S_FEATURES_OK)
  let status ← regRead dev R_STATUS d.status
  chanFailIf dev frame (status &&& S_FEATURES_OK == 0)

/-- `QueueSel` to `QueueDeviceHigh`, the same for both queues. -/
def queueSetup (d : Device) (dev frame q desc avail used : Nat) : Driver n Unit := do
  regWrite dev R_QUEUE_SEL (BitVec.ofNat 32 q)
  let numMax ← regRead dev R_QUEUE_NUM_MAX (d.numMax q)
  chanFailIf dev frame (numMax == 0)
  regWrite dev R_QUEUE_NUM CHAN_Q_SIZE
  regWrite dev R_QUEUE_DESC_LOW (BitVec.ofNat 32 desc)
  regWrite dev R_QUEUE_DESC_HIGH (BitVec.ofNat 32 (desc >>> 32))
  regWrite dev R_QUEUE_DRIVER_LOW (BitVec.ofNat 32 avail)
  regWrite dev R_QUEUE_DRIVER_HIGH (BitVec.ofNat 32 (avail >>> 32))
  regWrite dev R_QUEUE_DEVICE_LOW (BitVec.ofNat 32 used)
  regWrite dev R_QUEUE_DEVICE_HIGH (BitVec.ofNat 32 (used >>> 32))

def queueReady (d : Device) (dev frame q : Nat) : Driver n Unit := do
  regWrite dev R_QUEUE_READY 1
  let ready ← regRead dev R_QUEUE_READY (d.ready q)
  chanFailIf dev frame (ready != 1)

/-- Both queues, the receive buffer posted before `DRIVER_OK`. -/
def queues (d : Device) (dev frame : Nat) : Driver n Unit := do
  let rxDesc := frame + CHAN_RX_DESC_OFF
  let rxAvail := frame + CHAN_RX_AVAIL_OFF
  queueSetup d dev frame 0 rxDesc rxAvail (frame + CHAN_RX_USED_OFF)
  ramW64 rxDesc (frame + CHAN_RX_BUF_OFF)
  ramW32 (rxDesc + 8) (BitVec.ofNat 32 n)
  ramW16 (rxDesc + 12) VIRTQ_DESC_F_WRITE
  ramW16 (rxDesc + 14) 0
  ramW16 rxAvail VIRTQ_AVAIL_F_NO_INTERRUPT
  ramW16 (rxAvail + 4) 0
  dmaFence
  ramW16 (rxAvail + 2) 1
  queueReady d dev frame 0
  let txAvail := frame + CHAN_TX_AVAIL_OFF
  queueSetup d dev frame 1 (frame + CHAN_TX_DESC_OFF) txAvail (frame + CHAN_TX_USED_OFF)
  ramW16 txAvail VIRTQ_AVAIL_F_NO_INTERRUPT
  queueReady d dev frame 1
  regWrite dev R_STATUS (S_ACKNOWLEDGE ||| S_DRIVER ||| S_FEATURES_OK ||| S_DRIVER_OK)

/-- The wait for a used index other than `seen`. -/
def poll (dev frame used : Nat) (answer : Nat → BitVec 16) (seen : BitVec 16) (spins : Nat) : Driver n Unit := do
  let idx ← ramR16 (used + 2) (answer spins)
  if idx ≠ seen then pure ()
  else if POLL_CAP ≤ spins + 1 then chanFail dev frame
  else poll dev frame used answer seen (spins + 1)
termination_by POLL_CAP - spins

def transmit (d : Device) (dev frame : Nat) (req : List UInt8) : Driver n Unit := do
  let txDesc := frame + CHAN_TX_DESC_OFF
  let txAvail := frame + CHAN_TX_AVAIL_OFF
  ramW64 txDesc (frame + CHAN_TX_BUF_OFF)
  ramW32 (txDesc + 8) (BitVec.ofNat 32 req.length)
  ramW16 (txDesc + 12) 0
  ramW16 (txDesc + 14) 0
  ramW16 (txAvail + 4) 0
  dmaFence
  ramW16 (txAvail + 2) 1
  dmaFence
  regWrite dev R_QUEUE_NOTIFY 1
  poll dev frame (frame + CHAN_TX_USED_OFF) d.txIdx 0 0
  dmaFence

/-- The variables of the receive loop. -/
structure Rx where
  written : Nat
  availIdx : BitVec 16
  usedSeen : BitVec 16

/-- Post the window for the bytes that are still to come. -/
def repost (dev frame written : Nat) (availIdx : BitVec 16) : Driver n Unit := do
  let rxDesc := frame + CHAN_RX_DESC_OFF
  let rxAvail := frame + CHAN_RX_AVAIL_OFF
  ramW64 rxDesc (frame + CHAN_RX_BUF_OFF)
  ramW32 (rxDesc + 8) (BitVec.ofNat 32 (n - written))
  ramW16 (rxDesc + 12) VIRTQ_DESC_F_WRITE
  ramW16 (rxDesc + 14) 0
  ramW16 (rxAvail + 4 + 2 * (availIdx.toNat % CHAN_Q_SIZE.toNat)) 0
  dmaFence
  ramW16 (rxAvail + 2) (availIdx + 1)
  dmaFence
  regWrite dev R_QUEUE_NOTIFY 0

/-- One turn of the receive loop, the `round`-th. -/
def rxTurn (d : Device) (dev frame round : Nat) (rx : Rx) : Driver n Rx := do
  let rxUsed := frame + CHAN_RX_USED_OFF
  poll dev frame rxUsed (d.rxIdx round) rx.usedSeen 0
  dmaFence
  let entry := rxUsed + 4 + 8 * (rx.usedSeen.toNat % CHAN_Q_SIZE.toNat)
  let len ← ramR32 (entry + 4) (d.rxLen round)
  let remain := n - rx.written
  let take := if len.toNat > remain then remain else len.toNat
  (List.range take).forM fun b => storeResp (rx.written + b) (frame + CHAN_RX_BUF_OFF + b) (d.rxByte round b)
  if rx.written + take < n then
    repost dev frame (rx.written + take) rx.availIdx
    return ⟨rx.written + take, rx.availIdx + 1, rx.usedSeen + 1⟩
  else return ⟨rx.written + take, rx.availIdx, rx.usedSeen + 1⟩

/-- `while written < resp.len()`. -/
def rxLoop (d : Device) (dev frame : Nat) : Nat → Nat → Rx → Driver n Nat
  | 0, _, _ => throw .running
  | fuel + 1, round, rx =>
      if rx.written < n then do
        let rx' ← rxTurn d dev frame round rx
        rxLoop d dev frame fuel (round + 1) rx'
      else return rx.written

/-- Up to the receive loop. -/
def opening (d : Device) (dev frame : Nat) (req : List UInt8) : Driver n Unit := do
  stage frame req
  handshake d dev frame
  queues d dev frame
  transmit d dev frame req

/-- The session with its frame in hand. -/
def exchange (d : Device) (dev frame : Nat) (req : List UInt8) (fuel : Nat) : Driver n Nat := do
  opening d dev frame req
  let written ← rxLoop d dev frame fuel 0 ⟨0, 1, 0⟩
  regWrite dev R_STATUS 0
  emit (.free frame)
  return written

def chanSendRecv (host : Host) (d : Device) (slot : BitVec 32) (req : List UInt8) (fuel : Nat) : Driver n Nat :=
  if req.isEmpty || req.length > CHAN_TX_BUF_CAP || n == 0 || n > CHAN_RX_BUF_CAP then returnNone
  else match mapWindow host with
    | none => returnNone
    | some base =>
        match host.frameAlloc with
        | none => returnNone
        | some frame => do
            emit (.alloc frame)
            exchange d (base + slot.toNat * SLOT_STRIDE) frame req fuel

/-- What the caller gets, once the session has returned. -/
def returned (r : EStateM.Result Stop (Session n) Nat) : Option (Option Nat × Session n) :=
  match r with
  | .ok written s => some (some written, s)
  | .error .none s => some (none, s)
  | .error _ _ => none

/-! ## What is asked of a session, and when it fails -/

/-- The device answers a wait before the driver gives up on it. -/
def Answers (answer : Nat → BitVec 16) (seen : BitVec 16) : Prop := ∃ k, k < POLL_CAP ∧ answer k ≠ seen

/-- The device takes part up to the receive loop. -/
structure Opens (d : Device) : Prop where
  features : d.features &&& VIRTIO_F_VERSION_1_HI ≠ 0
  status : d.status &&& S_FEATURES_OK ≠ 0
  queue : ∀ q < 2, d.numMax q ≠ 0 ∧ d.ready q = 1
  sent : Answers d.txIdx 0

/-- The caller's buffers fit, the window is mapped and there is a frame. -/
structure Begins (host : Host) (req : List UInt8) (n : Nat) : Prop where
  request : 0 < req.length ∧ req.length ≤ CHAN_TX_BUF_CAP
  response : 0 < n ∧ n ≤ CHAN_RX_BUF_CAP
  window : (mapWindow host).isSome
  frame : host.frameAlloc.isSome

/-- Every wait of the receive loop is answered and the lengths never add up to the response. -/
def Stalls (d : Device) (n : Nat) : Prop :=
  ∀ r, Answers (d.rxIdx r) (BitVec.ofNat 16 r) ∧ ∑ i ∈ Finset.range r, (d.rxLen i).toNat < n

/-- What a session may leave behind: bytes stored inside the response and read from the receive
buffer of its own frame, every frame taken given back once, and no result but the full length. -/
structure Lawful (out : Option Nat) (s : Session n) : Prop where
  stores : ∀ i pa v, .store i pa v ∈ s.log → i < n ∧
    ∃ frame, .alloc frame ∈ s.log ∧ frame + CHAN_RX_BUF_OFF ≤ pa ∧ pa < frame + CHAN_RX_BUF_OFF + CHAN_RX_BUF_CAP
  freed : ∀ frame, s.log.count (.free frame) = s.log.count (.alloc frame) ∧ s.log.count (.alloc frame) ≤ 1
  full : ∀ written, out = some written → written = n

/-! ## What the steps write to the log -/

/-- An access of a session that holds `frame`. -/
def Op.Plain (frame n : Nat) : Op → Prop
  | .alloc _ | .free _ => False
  | .store i pa _ => i < n ∧ frame + CHAN_RX_BUF_OFF ≤ pa ∧ pa < frame + CHAN_RX_BUF_OFF + CHAN_RX_BUF_CAP
  | _ => True

/-- Only plain accesses were added. -/
def Own (frame : Nat) (s s' : Session n) : Prop := ∃ ops, s'.log = s.log ++ ops ∧ ∀ op ∈ ops, op.Plain frame n

def teardown (dev frame : Nat) (s : Session n) : Session n :=
  { s with log := s.log ++ [.regW (dev + R_STATUS) (S_ACKNOWLEDGE ||| S_DRIVER ||| S_FAILED), .free frame] }

variable {d : Device} {dev frame : Nat} {req : List UInt8}

instance : IsPreorder (Session n) (Own frame) where
  refl s := ⟨[], (List.append_nil _).symm, fun _ h => absurd h List.not_mem_nil⟩
  trans := by
    rintro s s₁ s₂ ⟨ops, hlog, hplain⟩ ⟨ops', hlog', hplain'⟩
    refine ⟨ops ++ ops', by rw [hlog', hlog, List.append_assoc], ?_⟩
    intro op hop
    exact (List.mem_append.mp hop).elim (hplain op) (hplain' op)

theorem emit_does {op : Op} (h : op.Plain frame n) : Does (Own frame) (emit op : Driver n Unit) () :=
  fun s => ⟨{ s with log := s.log ++ [op] }, ⟨[op], rfl, List.forall_mem_singleton.mpr h⟩, rfl⟩

theorem regRead_does {off : Nat} (answer : BitVec 32) :
    Does (Own frame) (regRead dev off answer : Driver n (BitVec 32)) answer :=
  Does.bind (emit_does (by trivial)) (.ret answer)

theorem ramR16_does {pa : Nat} (answer : BitVec 16) :
    Does (Own frame) (ramR16 pa answer : Driver n (BitVec 16)) answer :=
  Does.bind (emit_does (by trivial)) (.ret answer)

theorem ramR32_does {pa : Nat} (answer : BitVec 32) :
    Does (Own frame) (ramR32 pa answer : Driver n (BitVec 32)) answer :=
  Does.bind (emit_does (by trivial)) (.ret answer)

theorem storeResp_does {i pa : Nat} (answer : UInt8) (hi : i < n) (hlo : frame + CHAN_RX_BUF_OFF ≤ pa)
    (hhi : pa < frame + CHAN_RX_BUF_OFF + CHAN_RX_BUF_CAP) :
    Does (Own frame) (storeResp i pa answer : Driver n Unit) () := by
  refine Does.bind (emit_does (by trivial)) fun s => ?_
  refine ⟨⟨s.log ++ [.store i pa answer], s.resp.set i answer hi⟩,
    ⟨[.store i pa answer], rfl, List.forall_mem_singleton.mpr ⟨hi, hlo, hhi⟩⟩, ?_⟩
  rw [dif_pos hi]
  rfl

theorem chanFail_run (s : Session n) : chanFail dev frame s = .error .none (teardown dev frame s) := by
  show EStateM.Result.error Stop.none (Session.mk (s.log ++ [_] ++ [_]) s.resp) = _
  rw [List.append_assoc]
  rfl

/-- What a piece of the session does: it goes on where `c` holds and fails closed otherwise. -/
abbrev Stage (dev frame : Nat) {α : Type} (x : Driver n α) (c : Prop) (a : α) : Prop :=
  Ends (Own frame) (teardown dev frame) .none x c a

theorem chanFailIf_ends (p : Bool) : Stage dev frame (chanFailIf dev frame p : Driver n Unit) (p = false) () := by
  cases p with
  | true => exact .giveUp chanFail_run (by decide)
  | false => exact (Does.ret ()).ends rfl

/-! ## Up to the receive loop -/

theorem stage_does : Does (Own frame) (stage frame req : Driver n Unit) () :=
  Does.bind (.forM fun _ _ => emit_does (by trivial)) (.forM fun _ _ => emit_does (by trivial))

theorem handshake_ends : Stage dev frame (handshake d dev frame : Driver n Unit)
    (d.features &&& VIRTIO_F_VERSION_1_HI ≠ 0 ∧ d.status &&& S_FEATURES_OK ≠ 0) () := by
  have hends : Stage dev frame (handshake d dev frame : Driver n Unit)
      ((d.features &&& VIRTIO_F_VERSION_1_HI == 0) = false ∧ (d.status &&& S_FEATURES_OK == 0) = false) () := by
    iterate 4 refine .after (emit_does (by trivial)) ?_
    refine .after (regRead_does _) (.bind (chanFailIf_ends _) ?_)
    iterate 5 refine .after (emit_does (by trivial)) ?_
    exact .after (regRead_does _) (chanFailIf_ends _)
  exact hends.iff (by simp)

theorem queueSetup_ends {q desc avail used : Nat} :
    Stage dev frame (queueSetup d dev frame q desc avail used : Driver n Unit) (d.numMax q ≠ 0) () := by
  have hends : Stage dev frame (queueSetup d dev frame q desc avail used : Driver n Unit)
      ((d.numMax q == 0) = false ∧ True) () := by
    refine .after (emit_does (by trivial)) (.after (regRead_does _) (.bind (chanFailIf_ends _) ?_))
    iterate 6 refine .after (emit_does (by trivial)) ?_
    exact (emit_does (by trivial)).ends trivial
  exact hends.iff (by simp)

theorem queueReady_ends {q : Nat} :
    Stage dev frame (queueReady d dev frame q : Driver n Unit) (d.ready q = 1) () := by
  have hends : Stage dev frame (queueReady d dev frame q : Driver n Unit) ((d.ready q != 1) = false) () :=
    .after (emit_does (by trivial)) (.after (regRead_does _) (chanFailIf_ends _))
  exact hends.iff (by simp)

theorem queues_ends : Stage dev frame (queues d dev frame : Driver n Unit)
    (∀ q < 2, d.numMax q ≠ 0 ∧ d.ready q = 1) () := by
  have hends : Stage dev frame (queues d dev frame : Driver n Unit)
      (d.numMax 0 ≠ 0 ∧ d.ready 0 = 1 ∧ d.numMax 1 ≠ 0 ∧ d.ready 1 = 1 ∧ True) () := by
    refine .bind queueSetup_ends ?_
    iterate 8 refine .after (emit_does (by trivial)) ?_
    refine .bind queueReady_ends (.bind queueSetup_ends ?_)
    exact .after (emit_does (by trivial)) (.bind queueReady_ends ((emit_does (by trivial)).ends trivial))
  refine hends.iff ⟨?_, ?_⟩
  · rintro ⟨hmax₀, hready₀, hmax₁, hready₁, -⟩ q hq
    obtain rfl | rfl : q = 0 ∨ q = 1 := by omega
    · exact ⟨hmax₀, hready₀⟩
    · exact ⟨hmax₁, hready₁⟩
  · intro h
    exact ⟨(h 0 (by decide)).1, (h 0 (by decide)).2, (h 1 (by decide)).1, (h 1 (by decide)).2, trivial⟩

/-- A wait goes on if one of the reads left to it sees another index, and gives up at the cap. -/
theorem poll_ends {used spins : Nat} {answer : Nat → BitVec 16} {seen : BitVec 16} (hcap : spins < POLL_CAP) :
    Stage dev frame (poll dev frame used answer seen spins : Driver n Unit)
      (∃ k, spins ≤ k ∧ k < POLL_CAP ∧ answer k ≠ seen) () := by
  induction hleft : POLL_CAP - spins generalizing spins with
  | zero => omega
  | succ left ih =>
      rw [poll]
      refine .after (ramR16_does _) ?_
      by_cases hseen : answer spins ≠ seen
      · rw [if_pos hseen]
        exact (Does.ret ()).ends ⟨spins, le_rfl, hcap, hseen⟩
      · have hlater : ∀ k, spins ≤ k → answer k ≠ seen → spins + 1 ≤ k := by
          intro k hk hans
          rcases Nat.eq_or_lt_of_le hk with rfl | hlt
          · exact absurd hans hseen
          · exact hlt
        rw [if_neg hseen]
        by_cases hlast : POLL_CAP ≤ spins + 1
        · rw [if_pos hlast]
          refine .giveUp chanFail_run ?_
          rintro ⟨k, hk, hlt, hans⟩
          have := hlater k hk hans
          omega
        · rw [if_neg hlast]
          refine (ih (by omega) (by omega)).iff ⟨?_, ?_⟩
          · rintro ⟨k, hk, hrest⟩
            exact ⟨k, by omega, hrest⟩
          · rintro ⟨k, hk, hlt, hans⟩
            exact ⟨k, hlater k hk hans, hlt, hans⟩

theorem poll_answers {used : Nat} {answer : Nat → BitVec 16} {seen : BitVec 16} :
    Stage dev frame (poll dev frame used answer seen 0 : Driver n Unit) (Answers answer seen) () :=
  (poll_ends (by decide)).iff ⟨fun ⟨k, _, h⟩ => ⟨k, h⟩, fun ⟨k, h⟩ => ⟨k, Nat.zero_le k, h⟩⟩

theorem transmit_ends : Stage dev frame (transmit d dev frame req : Driver n Unit) (Answers d.txIdx 0) () := by
  have hends : Stage dev frame (transmit d dev frame req : Driver n Unit) (Answers d.txIdx 0 ∧ True) () := by
    iterate 9 refine .after (emit_does (by trivial)) ?_
    exact .bind poll_answers ((emit_does (by trivial)).ends trivial)
  exact hends.iff (and_iff_left trivial)

theorem opening_ends (d : Device) (dev frame : Nat) (req : List UInt8) :
    Stage dev frame (opening d dev frame req : Driver n Unit) (Opens d) () := by
  refine (Ends.after stage_does (.bind handshake_ends (.bind queues_ends transmit_ends))).iff ⟨?_, ?_⟩
  · rintro ⟨⟨hfeatures, hstatus⟩, hqueue, hsent⟩
    exact ⟨hfeatures, hstatus, hqueue, hsent⟩
  · intro h
    exact ⟨⟨h.features, h.status⟩, h.queue, h.sent⟩

/-! ## The receive loop -/

/-- The variables after a completion of length `len`. -/
def Rx.next (n len : Nat) (rx : Rx) : Rx where
  written := rx.written + min len (n - rx.written)
  availIdx := if rx.written + min len (n - rx.written) < n then rx.availIdx + 1 else rx.availIdx
  usedSeen := rx.usedSeen + 1

theorem repost_does {written : Nat} {availIdx : BitVec 16} :
    Does (Own frame) (repost dev frame written availIdx : Driver n Unit) () := by
  iterate 8 refine Does.bind (emit_does (by trivial)) ?_
  exact emit_does (by trivial)

/-- One turn: no byte of it lands outside the response or comes from outside the buffer. -/
theorem rxTurn_ends (d : Device) (dev frame round : Nat) (rx : Rx) (hfits : n ≤ CHAN_RX_BUF_CAP) :
    Stage dev frame (rxTurn d dev frame round rx : Driver n Rx) (Answers (d.rxIdx round) rx.usedSeen)
      (rx.next n (d.rxLen round).toNat) := by
  have htake : (if (d.rxLen round).toNat > n - rx.written then n - rx.written else (d.rxLen round).toNat) =
      min (d.rxLen round).toNat (n - rx.written) := by
    split <;> omega
  have hends : Stage dev frame (rxTurn d dev frame round rx : Driver n Rx)
      (Answers (d.rxIdx round) rx.usedSeen ∧ True) (rx.next n (d.rxLen round).toNat) := by
    refine .bind poll_answers (.after (emit_does (by trivial)) (.after (ramR32_does _) ?_))
    dsimp only
    rw [htake]
    refine .after (.forM fun b hb => ?_) ?_
    · have hb' : b < min (d.rxLen round).toNat (n - rx.written) := List.mem_range.mp hb
      exact storeResp_does _ (by omega) (Nat.le_add_right _ _) (by omega)
    · rw [Rx.next]
      split
      · exact .after repost_does ((Does.ret _).ends trivial)
      · exact (Does.ret _).ends trivial
  exact hends.iff (and_iff_left trivial)

/-- Where the loop is after `r` completions. -/
structure Rx.At (d : Device) (n r : Nat) (rx : Rx) : Prop where
  written : rx.written = min n (∑ i ∈ Finset.range r, (d.rxLen i).toNat)
  seen : rx.usedSeen = BitVec.ofNat 16 r

theorem Rx.At.start (d : Device) (n : Nat) : Rx.At d n 0 ⟨0, 1, 0⟩ where
  written := by rw [Finset.sum_range_zero, Nat.min_zero]
  seen := rfl

theorem Rx.At.next {r : Nat} {rx : Rx} (h : rx.At d n r) : (rx.next n (d.rxLen r).toNat).At d n (r + 1) where
  written := by
    show rx.written + min _ (n - rx.written) = _
    rw [Finset.sum_range_succ, h.written]
    omega
  seen := by
    rw [Rx.next, h.seen]
    exact (BitVec.ofNat_add r 1).symm

theorem Rx.At.full {r : Nat} {rx : Rx} (h : rx.At d n r) (hend : ¬ rx.written < n) : rx.written = n := by
  have := h.written
  omega

/-- With a turn for each completion up to the last that matters, the loop returns. -/
theorem rxLoop_ends (hfits : n ≤ CHAN_RX_BUF_CAP) {turns r : Nat} {rx : Rx} (hat : rx.At d n r)
    (hlast : ¬ Answers (d.rxIdx (r + turns)) (BitVec.ofNat 16 (r + turns)) ∨
      n ≤ ∑ i ∈ Finset.range (r + turns), (d.rxLen i).toNat) :
    ∃ c, Stage dev frame (rxLoop d dev frame (turns + 1) r rx : Driver n Nat) c n := by
  induction turns generalizing r rx with
  | zero =>
      rw [Nat.add_zero] at hlast
      rw [rxLoop]
      by_cases hroom : rx.written < n
      · have hsilent : ¬ Answers (d.rxIdx r) rx.usedSeen := by
          rw [hat.seen]
          exact hlast.resolve_right fun hfull => by
            have := hat.written
            omega
        rw [if_pos hroom]
        refine ⟨False, fun s => ?_⟩
        obtain ⟨s', hown, ⟨hanswers, -⟩ | ⟨-, hrun⟩⟩ := rxTurn_ends d dev frame r rx hfits s
        · exact absurd hanswers hsilent
        · exact ⟨s', hown, .inr ⟨id, bind_error hrun⟩⟩
      · rw [if_neg hroom, hat.full hroom]
        exact ⟨True, (Does.ret n).ends trivial⟩
  | succ turns ih =>
      rw [rxLoop]
      by_cases hroom : rx.written < n
      · obtain ⟨c, hrest⟩ := ih hat.next (by rwa [Nat.succ_add_eq_add_succ])
        rw [if_pos hroom]
        exact ⟨_, .bind (rxTurn_ends d dev frame r rx hfits) hrest⟩
      · rw [if_neg hroom, hat.full hroom]
        exact ⟨True, (Does.ret n).ends trivial⟩

theorem rxLoop_stalls (dev frame fuel : Nat) (hfits : n ≤ CHAN_RX_BUF_CAP) (hstalls : Stalls d n) {r : Nat} {rx : Rx}
    (hat : rx.At d n r) (s : Session n) : ∃ s', rxLoop d dev frame fuel r rx s = .error .running s' := by
  induction fuel generalizing r rx s with
  | zero => exact ⟨s, rfl⟩
  | succ fuel ih =>
      have hroom : rx.written < n := by
        have := hat.written
        have := (hstalls r).2
        omega
      rw [rxLoop, if_pos hroom]
      obtain ⟨s₁, -, ⟨-, hrun⟩ | ⟨hsilent, -⟩⟩ := rxTurn_ends d dev frame r rx hfits s
      · rw [bind_ok hrun]
        exact ih hat.next s₁
      · rw [hat.seen] at hsilent
        exact absurd (hstalls r).1 hsilent

/-! ## The session -/

/-- `r` returns after nothing but plain accesses and the release of the frame. -/
def Closes (dev frame : Nat) (s : Session n) (r : EStateM.Result Stop (Session n) Nat) : Prop :=
  ∃ out ops v resp, (∀ op ∈ ops, op.Plain frame n) ∧ (∀ written, out = some written → written = n) ∧
    returned r = some (out, ⟨s.log ++ ops ++ [.regW (dev + R_STATUS) v, .free frame], resp⟩)

theorem closes_teardown {s s' : Session n} (h : Own frame s s') :
    Closes dev frame s (.error .none (teardown dev frame s')) := by
  obtain ⟨ops, hlog, hplain⟩ := h
  refine ⟨none, ops, S_ACKNOWLEDGE ||| S_DRIVER ||| S_FAILED, s'.resp, hplain, (fun _ h => nomatch h), ?_⟩
  rw [returned, teardown, hlog]

/-- With a loop that returns, so does the session. -/
theorem exchange_closes (req : List UInt8) {fuel : Nat}
    (hloop : Opens d → ∃ c, Stage dev frame (rxLoop d dev frame fuel 0 ⟨0, 1, 0⟩ : Driver n Nat) c n)
    (s : Session n) : Closes dev frame s (exchange d dev frame req fuel s) := by
  rw [exchange]
  obtain ⟨s₁, hown₁, ⟨hopens, hrun₁⟩ | ⟨-, hrun₁⟩⟩ := opening_ends d dev frame req s
  · obtain ⟨c, hends⟩ := hloop hopens
    rw [bind_ok hrun₁]
    obtain ⟨s₂, hown₂, ⟨-, hrun₂⟩ | ⟨-, hrun₂⟩⟩ := hends s₁
    · obtain ⟨ops, hlog, hplain⟩ := IsTrans.trans _ _ _ hown₁ hown₂
      refine ⟨some n, ops, 0, s₂.resp, hplain, (fun _ h => (Option.some.inj h).symm), ?_⟩
      rw [bind_ok hrun₂, ← hlog]
      show some (some n, Session.mk (s₂.log ++ [_] ++ [_]) s₂.resp) = _
      rw [List.append_assoc]
      rfl
    · rw [bind_error hrun₂]
      exact closes_teardown (IsTrans.trans _ _ _ hown₁ hown₂)
  · rw [bind_error hrun₁]
    exact closes_teardown hown₁

theorem lawful_of_plain {out : Option Nat} {ops : List Op} {pa : Nat} {v : BitVec 32} {resp : Vector UInt8 n}
    (hplain : ∀ op ∈ ops, op.Plain frame n) (hfull : ∀ written, out = some written → written = n) :
    Lawful out (Session.mk ([.alloc frame] ++ ops ++ [.regW pa v, .free frame]) resp) where
  stores := by
    intro i pa v hmem
    have hop : Op.store i pa v ∈ ops := by simpa using hmem
    obtain ⟨hi, hlo, hhi⟩ := hplain _ hop
    exact ⟨hi, frame, by simp, hlo, hhi⟩
  freed := by
    intro f
    have halloc : ops.count (.alloc f) = 0 := List.count_eq_zero.mpr fun h => hplain _ h
    have hfree : ops.count (.free f) = 0 := List.count_eq_zero.mpr fun h => hplain _ h
    by_cases hf : frame = f
    · simp [List.count_append, halloc, hfree, hf]
    · simp [List.count_append, halloc, hfree, hf]
  full := hfull

theorem lawful_refused (resp : Vector UInt8 n) : Lawful none (Session.mk [] resp) where
  stores _ _ _ h := absurd h List.not_mem_nil
  freed _ := ⟨rfl, Nat.zero_le 1⟩
  full _ h := by cases h

variable {host : Host} {slot : BitVec 32}

theorem sizes_fit : (req.isEmpty || req.length > CHAN_TX_BUF_CAP || n == 0 || n > CHAN_RX_BUF_CAP) = false ↔
    (0 < req.length ∧ req.length ≤ CHAN_TX_BUF_CAP) ∧ 0 < n ∧ n ≤ CHAN_RX_BUF_CAP := by
  rw [← Bool.not_eq_true, List.length_pos_iff]
  simp only [Bool.or_eq_true, List.isEmpty_iff, decide_eq_true_eq, beq_iff_eq]
  by_cases hempty : req = []
  · simp [hempty]
  · simp only [hempty, ne_eq, not_false_eq_true, true_and, false_or]
    omega

/-- A session that does not begin is refused before it has taken anything. -/
theorem chanSendRecv_refused {fuel : Nat} (h : ¬ Begins host req n) (s : Session n) :
    chanSendRecv host d slot req fuel s = .error .none s := by
  rw [chanSendRecv]
  split
  · rfl
  · rename_i hsizes
    cases hwindow : mapWindow host with
    | none => rfl
    | some base =>
        cases hframe : host.frameAlloc with
        | none => rfl
        | some frame =>
            obtain ⟨hrequest, hresponse⟩ := sizes_fit.mp (Bool.eq_false_iff.mpr hsizes)
            exact absurd ⟨hrequest, hresponse, by rw [hwindow]; rfl, by rw [hframe]; rfl⟩ h

theorem chanSendRecv_begins (d : Device) (slot : BitVec 32) (fuel : Nat) (h : Begins host req n) (s : Session n) :
    ∃ dev frame, chanSendRecv host d slot req fuel s =
      exchange d dev frame req fuel ⟨s.log ++ [.alloc frame], s.resp⟩ := by
  obtain ⟨base, hwindow⟩ := Option.isSome_iff_exists.mp h.window
  obtain ⟨frame, hframe⟩ := Option.isSome_iff_exists.mp h.frame
  refine ⟨base + slot.toNat * SLOT_STRIDE, frame, ?_⟩
  rw [chanSendRecv, if_neg (Bool.eq_false_iff.mp (sizes_fit.mpr ⟨h.request, h.response⟩)), hwindow, hframe]
  exact bind_ok rfl

/-- A device that stalls keeps the session for ever. -/
theorem chan_unbounded (hbegins : Begins host req n) (hopens : Opens d) (hstalls : Stalls d n) (fuel : Nat)
    (s : Session n) : returned (chanSendRecv host d slot req fuel s) = none := by
  obtain ⟨dev, frame, heq⟩ := chanSendRecv_begins d slot fuel hbegins s
  rw [heq, exchange]
  obtain ⟨s₁, -, ⟨-, hrun⟩ | ⟨hclosed, -⟩⟩ := opening_ends d dev frame req ⟨s.log ++ [.alloc frame], s.resp⟩
  · obtain ⟨s₂, hrun₂⟩ := rxLoop_stalls dev frame fuel hbegins.response.2 hstalls (Rx.At.start d n) s₁
    rw [bind_ok hrun, bind_error hrun₂]
    rfl
  · exact absurd hopens hclosed

/-- A device that does not stall lets every session return, and lawfully. -/
theorem chan_returns (hstalls : ¬ (Begins host req n ∧ Opens d ∧ Stalls d n)) (resp : Vector UInt8 n) :
    ∃ fuel out s, returned (chanSendRecv host d slot req fuel ⟨[], resp⟩) = some (out, s) ∧ Lawful out s := by
  by_cases hbegins : Begins host req n
  · have hloop : ∃ fuel, ∀ dev frame, Opens d →
        ∃ c, Stage dev frame (rxLoop d dev frame fuel 0 ⟨0, 1, 0⟩ : Driver n Nat) c n := by
      by_cases hopens : Opens d
      · have hlast : ∃ r, ¬ Answers (d.rxIdx r) (BitVec.ofNat 16 r) ∨
            n ≤ ∑ i ∈ Finset.range r, (d.rxLen i).toNat := by
          by_contra hnone
          refine hstalls ⟨hbegins, hopens, fun r => ⟨?_, ?_⟩⟩
          · exact of_not_not fun h => hnone ⟨r, .inl h⟩
          · exact Nat.lt_of_not_le fun h => hnone ⟨r, .inr h⟩
        obtain ⟨r, hr⟩ := hlast
        refine ⟨r + 1, fun dev frame _ => rxLoop_ends hbegins.response.2 (Rx.At.start d n) ?_⟩
        rwa [Nat.zero_add]
      · exact ⟨0, fun _ _ h => absurd h hopens⟩
    obtain ⟨fuel, hloop⟩ := hloop
    obtain ⟨dev, frame, heq⟩ := chanSendRecv_begins d slot fuel hbegins ⟨[], resp⟩
    obtain ⟨out, ops, v, resp', hplain, hfull, hret⟩ :=
      exchange_closes req (hloop dev frame) ⟨[.alloc frame], resp⟩
    exact ⟨fuel, out, _, by rw [heq]; exact hret, lawful_of_plain hplain hfull⟩
  · refine ⟨0, none, ⟨[], resp⟩, ?_, lawful_refused resp⟩
    rw [chanSendRecv_refused hbegins]
    rfl

/-- **Bounded but for a device that stalls.** -/
theorem chan_bounded_iff (host : Host) (d : Device) (slot : BitVec 32) (req : List UInt8) {n : Nat}
    (resp : Vector UInt8 n) :
    (∃ fuel out s, returned (chanSendRecv host d slot req fuel ⟨[], resp⟩) = some (out, s) ∧ Lawful out s) ↔
      ¬ (Begins host req n ∧ Opens d ∧ Stalls d n) := by
  refine ⟨?_, fun h => chan_returns h resp⟩
  rintro ⟨fuel, out, s, hret, -⟩ ⟨hbegins, hopens, hstalls⟩
  rw [chan_unbounded hbegins hopens hstalls] at hret
  cases hret

/-- A device that takes part and completes the receive buffer again and again, with no bytes in it. -/
def idleDevice : Device where
  features := 1
  status := 8
  numMax _ := 4
  ready _ := 1
  txIdx _ := 1
  rxIdx round _ := BitVec.ofNat 16 round + 1
  rxLen _ := 0
  rxByte _ _ := 0

def readyHost : Host := ⟨fun _ _ => true, some 0x100000⟩

theorem idleDevice_opens : Opens idleDevice where
  features := by decide
  status := by decide
  queue _ _ := ⟨(by decide : (4 : BitVec 32) ≠ 0), rfl⟩
  sent := ⟨0, by decide, by decide⟩

theorem idleDevice_stalls : Stalls idleDevice 1 := by
  intro r
  refine ⟨⟨0, by decide, ?_⟩, ?_⟩
  · show BitVec.ofNat 16 r + 1 ≠ BitVec.ofNat 16 r
    intro h
    simp at h
  · exact (Finset.sum_eq_zero fun _ _ => rfl).trans_lt Nat.one_pos

theorem chan_hangs_on_idle_device : ¬ ∃ fuel out s,
    returned (chanSendRecv readyHost idleDevice 0 [0] fuel ⟨[], #v[0]⟩) = some (out, s) ∧ Lawful out s := by
  rintro ⟨fuel, out, s, hret, -⟩
  have hbegins : Begins readyHost [0] 1 := ⟨by decide, by decide, by decide, by decide⟩
  rw [chan_unbounded hbegins idleDevice_opens idleDevice_stalls] at hret
  cases hret

end Yuva.Hal
