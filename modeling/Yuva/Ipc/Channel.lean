/-
# `Yuva.Ipc.Channel` — channels and the calls that send and receive

`tb-hal/src/ipc.rs` and the channel calls of `tb-hal/src/caps.rs`.  A channel
core has one bounded ring per side, `dir s` being side `s`'s outbox; the two
endpoint objects share the core through an `Rc`, here an index into `chans`.
A message may carry a capability: it is detached from the sender's table on
send and attached to the receiver's on receive.

The calls are those through which a principal reaches a ring:

    dispatch with M_CHAN_SEND, M_CHAN_RECV, M_CHAN_CLOSE     `chanSend`, `chanRecv`, `chanClose`
    the byte-payload facades                                 `chanSendBytes`, `chanRecvBytes`

`chan_recv` is the READ gate of `dispatch` followed by `chan_recv_body`, so one
definition serves both.  The page-table walk behind `copy_from_user` and
`copy_to_user` is not channel code; a call carries what it did as a `Uaccess`.
-/
import Yuva.Caps.Table
import Mathlib.Logic.Function.Basic

namespace Yuva.Ipc

open Yuva.Caps CapTable

/-- The two ends of a channel. -/
inductive Side where
  | zero | one
deriving DecidableEq, Repr

/-- `1 - side`. -/
def Side.peer : Side → Side
  | .zero => .one
  | .one => .zero

/-- The largest byte payload of one message. -/
def MAX_PAYLOAD : Nat := 4096

/-- No receiver is parked. -/
def NO_WAITER : BitVec 32 := BitVec.allOnes 32

/-- One message in transit. -/
structure Message (O : Type*) where
  payload : BitVec 64
  bytes : Option (List UInt8)
  cap : Option (O × Rights)
deriving DecidableEq, Repr

def Message.byteLen {O : Type*} (m : Message O) : Nat :=
  match m.bytes with
  | some b => b.length
  | none => 0

/-- One direction: a FIFO bounded at `cap`. -/
structure Ring (O : Type*) where
  q : List (Message O)
  cap : Nat
deriving DecidableEq, Repr

/-- The channel core both endpoints share. -/
structure Channel (O : Type*) where
  dir : Side → Ring O
  isOpen : Side → Bool
  waiter : Side → BitVec 32

namespace Channel

variable {O : Type*}

def create (bound : Nat) : Channel O :=
  ⟨fun _ => ⟨[], bound⟩, fun _ => true, fun _ => NO_WAITER⟩

def outbox (c : Channel O) (side : Side) : Ring O := c.dir side

def inbox (c : Channel O) (side : Side) : Ring O := c.dir side.peer

def peerOpen (c : Channel O) (side : Side) : Bool := c.isOpen side.peer

def closeSide (c : Channel O) (side : Side) : Channel O :=
  { c with isOpen := Function.update c.isOpen side false }

def setWaiter (c : Channel O) (ring : Side) (task : BitVec 32) : Channel O :=
  { c with waiter := Function.update c.waiter ring task }

/-- Read and clear the receiver parked on a ring. -/
def takeWaiter (c : Channel O) (ring : Side) : Option (BitVec 32) × Channel O :=
  let t := c.waiter ring
  (if t = NO_WAITER then none else some t, c.setWaiter ring NO_WAITER)

/-- Replace the queue of one direction. -/
def setQueue (c : Channel O) (ring : Side) (q : List (Message O)) : Channel O :=
  { c with dir := Function.update c.dir ring { c.dir ring with q := q } }

@[simp] theorem setQueue_q (c : Channel O) (ring : Side) (q : List (Message O)) :
    ((c.setQueue ring q).dir ring).q = q := by simp [setQueue]

theorem setQueue_dir_ne (c : Channel O) {ring s : Side} (q : List (Message O)) (h : s ≠ ring) :
    (c.setQueue ring q).dir s = c.dir s := by simp [setQueue, Function.update_of_ne h]

@[simp] theorem takeWaiter_dir (c : Channel O) (ring : Side) :
    (c.takeWaiter ring).2.dir = c.dir := rfl

end Channel

/-- A kernel object: the endpoint it is, if any, and the payload the channel
code never reads (its kind, memory home, block or model session). -/
structure Object (κ β : Type*) where
  chan : Option (κ × Side)
  body : β
deriving DecidableEq, Repr

/-- What the user-memory copies of one call do: the bounce buffer filled, or a
fault; and whether the bytes could be written out. -/
structure Uaccess where
  copyFromUser : List UInt8 → Option (List UInt8)
  copyToUser : List UInt8 → Bool

/-- What a call answers: the status, the inline payload, the moved handle's raw
word and the byte length; and what its `copy_to_user` put into the caller's buffer. -/
structure Reply where
  status : SysStatus
  payload : BitVec 64
  moved : BitVec 64
  len : Nat
  copied : List UInt8
deriving DecidableEq, Repr

def Reply.err (e : SysStatus) : Reply := ⟨e, 0, 0, 0, []⟩

variable {κ β : Type*} [DecidableEq κ]

/-- The caller's table and the channel cores it reaches through its endpoints. -/
structure View (κ β : Type*) where
  table : CapTable (Object κ β)
  chans : κ → Channel (Object κ β)

namespace View

/-- `live`, the rights gate, then the endpoint behind the handle. -/
def endpoint (v : View κ β) (ep : Handle) (need : Rights) : Except SysStatus (κ × Side) :=
  match v.table.live ep with
  | .error e => .error e
  | .ok i =>
      if !(v.table.rightsAt i).contains need then .error .denied
      else
        match v.table.objectAt i with
        | none => .error .stale
        | some o =>
            match o.chan with
            | none => .error .badCap
            | some cs => .ok cs

/-- Resolve, check and detach the capability a message carries; the raw word 0
stands for none. -/
def park (v : View κ β) (c : κ) (capRaw : BitVec 64) :
    Except SysStatus (Option (Object κ β × Rights)) × CapTable (Object κ β) :=
  if capRaw = 0 then (.ok none, v.table)
  else
    let capH := Handle.fromRaw capRaw
    match v.table.live capH with
    | .error e => (.error e, v.table)
    | .ok ci =>
        if !(v.table.rightsAt ci).contains Rights.TRANSFER then (.error .denied, v.table)
        -- an endpoint is never sent into its own channel
        else if ((v.table.objectAt ci).bind (·.chan)).any (·.1 = c) then (.error .denied, v.table)
        else
          match v.table.detach capH with
          | (.error e, t) => (.error e, t)
          | (.ok p, t) => (.ok (some p), t)

/-- Append to the outbox, then wake the receiver parked on it. -/
def enqueue (v : View κ β) (c : κ) (side : Side) (m : Message (Object κ β)) : View κ β :=
  let pushed := (v.chans c).setQueue side (((v.chans c).outbox side).q ++ [m])
  { v with chans := Function.update v.chans c (pushed.takeWaiter side).2 }

/-- The tail shared by the two sends: park the capability, then enqueue. -/
def parkAndEnqueue (v : View κ β) (c : κ) (side : Side) (payload capRaw : BitVec 64)
    (bytes : Option (List UInt8)) : Reply × View κ β :=
  match v.park c capRaw with
  | (.error e, t) => (.err e, { v with table := t })
  | (.ok cap, t) => (⟨.ok, 0, 0, 0, []⟩, { v with table := t }.enqueue c side ⟨payload, bytes, cap⟩)

/-- `dispatch` at `M_CHAN_SEND`. -/
def chanSend (v : View κ β) (ep : Handle) (payload capRaw : BitVec 64) : Reply × View κ β :=
  match v.endpoint ep Rights.WRITE with
  | .error e => (.err e, v)
  | .ok (c, side) =>
      if !(v.chans c).peerOpen side then (.err .peerClosed, v)
      else if ((v.chans c).outbox side).q.length ≥ ((v.chans c).outbox side).cap then
        (.err .wouldBlock, v)
      else v.parkAndEnqueue c side payload capRaw none

/-- The bounce buffer: zeroed, then filled from user memory unless it is empty. -/
def sentBytes (len : Nat) (user : Uaccess) : Option (List UInt8) :=
  if len > 0 then user.copyFromUser (List.replicate len 0) else some (List.replicate len 0)

/-- `chan_send_bytes`. -/
def chanSendBytes (v : View κ β) (ep : Handle) (payload capRaw : BitVec 64) (len : Nat)
    (user : Uaccess) : Reply × View κ β :=
  match v.endpoint ep Rights.WRITE with
  | .error e => (.err e, v)
  | .ok (c, side) =>
      if !(v.chans c).peerOpen side then (.err .peerClosed, v)
      else if ((v.chans c).outbox side).q.length ≥ ((v.chans c).outbox side).cap then
        (.err .wouldBlock, v)
      else if len > MAX_PAYLOAD then (.err .denied, v)
      else
        -- the copy comes before the detach
        match sentBytes len user with
        | none => (.err .fault, v)
        | some bytes => v.parkAndEnqueue c side payload capRaw (some bytes)

/-- What an empty inbox answers. -/
def emptyReply (v : View κ β) (c : κ) (side : Side) : Reply :=
  if (v.chans c).peerOpen side then .err .wouldBlock else .err .peerClosed

/-- The inbox without its head, then the carried capability attached. -/
def popAndAttach (v : View κ β) (c : κ) (side : Side) (m : Message (Object κ β))
    (rest : List (Message (Object κ β))) (len : Nat) (copied : List UInt8) : Reply × View κ β :=
  let popped := { v with
    chans := Function.update v.chans c ((v.chans c).setQueue side.peer rest) }
  match m.cap with
  | none => (⟨.ok, m.payload, 0, len, copied⟩, popped)
  | some parked =>
      match v.table.attach parked with
      | (some h, t) => (⟨.ok, m.payload, h.raw, len, copied⟩, { popped with table := t })
      | (none, t) => (⟨.objFull, m.payload, 0, len, copied⟩, { popped with table := t })

/-- `chan_recv`, and `dispatch` at `M_CHAN_RECV`; the carried bytes are not surfaced. -/
def chanRecv (v : View κ β) (ep : Handle) : Reply × View κ β :=
  match v.endpoint ep Rights.READ with
  | .error e => (.err e, v)
  | .ok (c, side) =>
      match ((v.chans c).inbox side).q with
      | [] => (v.emptyReply c side, v)
      | m :: rest => v.popAndAttach c side m rest 0 []

/-- `chan_recv_bytes`: a buffer too small, or a faulting copy, leaves the
message at the head of the inbox. -/
def chanRecvBytes (v : View κ β) (ep : Handle) (dstCap : Nat) (user : Uaccess) :
    Reply × View κ β :=
  match v.endpoint ep Rights.READ with
  | .error e => (.err e, v)
  | .ok (c, side) =>
      match ((v.chans c).inbox side).q with
      | [] => (v.emptyReply c side, v)
      | m :: rest =>
          if m.byteLen > dstCap then (.err .fault, v)
          else
            match m.bytes with
            | none => v.popAndAttach c side m rest m.byteLen []
            | some bytes =>
                if !bytes.isEmpty && !user.copyToUser bytes then
                  -- popped and pushed back to the front
                  (.err .fault, { v with
                    chans := Function.update v.chans c
                      ((v.chans c).setQueue side.peer (m :: rest)) })
                else v.popAndAttach c side m rest m.byteLen bytes

/-- `dispatch` at `M_CHAN_CLOSE`. -/
def chanClose (v : View κ β) (ep : Handle) : Reply × View κ β :=
  match v.endpoint ep Rights.NONE with
  | .error e => (.err e, v)
  | .ok (c, side) =>
      (⟨.ok, 0, 0, 0, []⟩, { v with chans := Function.update v.chans c ((v.chans c).closeSide side) })

end View

end Yuva.Ipc
