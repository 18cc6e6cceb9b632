/-
# `Yuva.Hal.Blk` — one request to the block device

`tb-hal/src/arch/x86_64/virtio.rs`, `blk_request` and the three calls over it: a request is laid
out in a fresh frame, handed to the device, waited for and read back.  The program and the
device's answers are those of `Yuva.Hal.Chan`; the handshake, the queue's registers and the wait
are the same code on both devices.

Up to the kick the program writes a fixed list of accesses (`setupOps`), or the beginning of it
and the teardown (`blkSetup_posts`).  `blk_lawful` is what a call leaves, whatever the device
shows: success exactly when the device took part, answered in time and reported it; the caller's
buffer changed by nothing but a successful read; memory touched inside the frame only; the frame
given back; the device reset or marked as failed.
-/
import Yuva.Hal.Chan
import Yuva.Lib.Journal
import Yuva.Lib.Bytes

namespace Yuva.Hal

open Yuva.Bytes Yuva.Teardown Yuva.Journal

def T_IN : BitVec 32 := 0
def T_OUT : BitVec 32 := 1
def T_FLUSH : BitVec 32 := 4
def S_OK : UInt8 := 0
def S_IOERR : UInt8 := 1
def S_UNSUPP : UInt8 := 2
def REQ_HEADER_LEN : Nat := 16

def VIRTQ_DESC_F_NEXT : BitVec 16 := 1

def BLK_DESC_OFF : Nat := 0x000
def BLK_AVAIL_OFF : Nat := 0x040
def BLK_USED_OFF : Nat := 0x080
def BLK_HDR_OFF : Nat := 0x100
def BLK_STATUS_OFF : Nat := 0x110
def BLK_DATA_OFF : Nat := 0x200

/-- The type, a reserved word and the sector. -/
def reqHeaderEncode (reqType : BitVec 32) (sector : BitVec 64) : List UInt8 :=
  le 4 reqType.toNat ++ le 4 0 ++ le 8 sector.toNat

/-- Any status but the first two known ones is an input-output error. -/
def statusDecode (b : UInt8) : UInt8 := if b = S_OK then S_OK else if b = S_UNSUPP then S_UNSUPP else S_IOERR

/-- The values the device shows: its registers, the used index by spin, the status byte and the
data buffer. -/
structure BlkDevice where
  features : BitVec 32
  status : BitVec 32
  numMax : BitVec 32
  ready : BitVec 32
  usedIdx : Nat → BitVec 16
  st : UInt8
  data : Vector UInt8 512

/-- The one queue in the place of the channel's. -/
def BlkDevice.queue (d : BlkDevice) : Device where
  features := d.features
  status := d.status
  numMax _ := d.numMax
  ready _ := d.ready
  txIdx := d.usedIdx
  rxIdx _ _ := 0
  rxLen _ := 0
  rxByte _ _ := 0

def ramR8 {n : Nat} (pa : Nat) (answer : UInt8) : Driver n UInt8 := do
  emit (.ramR 8 pa)
  return answer

/-! ## The request -/

/-- The sector of a write. -/
def blkData (frame : Nat) (reqType : BitVec 32) : Option (Vector UInt8 512) → Driver 512 Unit
  | some d =>
      if reqType = T_OUT then (List.range 512).forM fun i => ramW8 (frame + BLK_DATA_OFF + i) (d.toList.getD i 0)
      else pure ()
  | none => pure ()

/-- The header, the sector of a write, and a status no device reports. -/
def blkStage (frame : Nat) (reqType : BitVec 32) (sector : BitVec 64) (data : Option (Vector UInt8 512)) :
    Driver 512 Unit := do
  (List.range (4096 / 8)).forM fun z => ramW64 (frame + 8 * z) 0
  (List.range REQ_HEADER_LEN).forM fun k =>
    ramW8 (frame + BLK_HDR_OFF + k) ((reqHeaderEncode reqType sector).getD k 0)
  blkData frame reqType data
  ramW8 (frame + BLK_STATUS_OFF) 0xFF

/-- One entry of the descriptor table. -/
def blkDesc (desc addr : Nat) (len : BitVec 32) (flags next : BitVec 16) : Driver 512 Unit := do
  ramW64 desc addr
  ramW32 (desc + 8) len
  ramW16 (desc + 12) flags
  ramW16 (desc + 14) next

/-- Header and status, and between them the sector, unless there is none. -/
def blkChain (frame : Nat) (reqType : BitVec 32) : Driver 512 Unit := do
  let desc := frame + BLK_DESC_OFF
  blkDesc desc (frame + BLK_HDR_OFF) (BitVec.ofNat 32 REQ_HEADER_LEN) VIRTQ_DESC_F_NEXT 1
  if reqType = T_FLUSH then
    blkDesc (desc + 16) (frame + BLK_STATUS_OFF) 1 VIRTQ_DESC_F_WRITE 0
  else do
    blkDesc (desc + 16) (frame + BLK_DATA_OFF) 512
      (if reqType = T_IN then VIRTQ_DESC_F_WRITE ||| VIRTQ_DESC_F_NEXT else VIRTQ_DESC_F_NEXT) 2
    blkDesc (desc + 32) (frame + BLK_STATUS_OFF) 1 VIRTQ_DESC_F_WRITE 0

/-- Everything the device may refuse. -/
def blkSetup (d : BlkDevice) (dev frame : Nat) (reqType : BitVec 32) (sector : BitVec 64)
    (data : Option (Vector UInt8 512)) : Driver 512 Unit := do
  let avail := frame + BLK_AVAIL_OFF
  blkStage frame reqType sector data
  handshake d.queue dev frame
  queueSetup d.queue dev frame 0 (frame + BLK_DESC_OFF) avail (frame + BLK_USED_OFF)
  blkChain frame reqType
  ramW16 avail VIRTQ_AVAIL_F_NO_INTERRUPT
  ramW16 (avail + 4) 0
  queueReady d.queue dev frame 0

/-- `DRIVER_OK`, the index of the available ring, the kick. -/
def blkKick (dev frame : Nat) : Driver 512 Unit := do
  regWrite dev R_STATUS (S_ACKNOWLEDGE ||| S_DRIVER ||| S_FEATURES_OK ||| S_DRIVER_OK)
  dmaFence
  ramW16 (frame + BLK_AVAIL_OFF + 2) 1
  dmaFence
  regWrite dev R_QUEUE_NOTIFY 0

/-- `d[i] = ram_r8(dbuf + i)`, where there is something to read and somewhere to put it. -/
def blkCopy (d : BlkDevice) (frame : Nat) (wanted : Bool) : Driver 512 Unit :=
  if wanted then (List.range 512).forM fun i => storeResp i (frame + BLK_DATA_OFF + i) (d.data.toList.getD i 0)
  else pure ()

/-- The wait, and what the device wrote. -/
def blkComplete (d : BlkDevice) (dev frame : Nat) (reqType : BitVec 32) (hasData : Bool) : Driver 512 Bool := do
  poll dev frame (frame + BLK_USED_OFF) d.usedIdx 0 0
  dmaFence
  let st ← ramR8 (frame + BLK_STATUS_OFF) d.st
  let ok := statusDecode st == S_OK
  blkCopy d frame (ok && reqType == T_IN && hasData)
  regWrite dev R_STATUS 0
  emit (.free frame)
  return ok

/-- `return false` is the end of a program that gives up. -/
def blkRequest (host : Host) (d : BlkDevice) (slot : BitVec 32) (reqType : BitVec 32) (sector : BitVec 64)
    (data : Option (Vector UInt8 512)) : Driver 512 Bool :=
  match mapWindow host with
  | none => returnNone
  | some base =>
      match host.frameAlloc with
      | none => returnNone
      | some frame => do
          let dev := base + slot.toNat * SLOT_STRIDE
          emit (.alloc frame)
          blkSetup d dev frame reqType sector data
          blkKick dev frame
          blkComplete d dev frame reqType data.isSome

def blkReturned (r : EStateM.Result Stop (Session 512) Bool) : Option (Bool × Session 512) :=
  match r with
  | .ok b s => some (b, s)
  | .error .none s => some (false, s)
  | .error _ _ => none

/-- The three calls; a call that is handed no buffer starts from one of zeros. -/
inductive BlkCall where
  | read (sector : BitVec 64) (buf : Vector UInt8 512)
  | write (sector : BitVec 64) (buf : Vector UInt8 512)
  | flush

namespace BlkCall

def reqType : BlkCall → BitVec 32
  | .read _ _ => T_IN
  | .write _ _ => T_OUT
  | .flush => T_FLUSH

def sector : BlkCall → BitVec 64
  | .read sector _ => sector
  | .write sector _ => sector
  | .flush => 0

def data : BlkCall → Option (Vector UInt8 512)
  | .read _ buf => some buf
  | .write _ buf => some buf
  | .flush => none

def buffer (k : BlkCall) : Vector UInt8 512 := k.data.getD (Vector.replicate 512 0)

def run (k : BlkCall) (host : Host) (d : BlkDevice) (slot : BitVec 32) : Option (Bool × Session 512) :=
  blkReturned (blkRequest host d slot k.reqType k.sector k.data ⟨[], k.buffer⟩)

end BlkCall

/-! ## The accesses up to the kick -/

def dataOps (frame : Nat) (reqType : BitVec 32) : Option (Vector UInt8 512) → List Op
  | some d =>
      if reqType = T_OUT then
        (List.range 512).flatMap fun i => [Op.ramW 8 (frame + BLK_DATA_OFF + i) (d.toList.getD i 0).toNat]
      else []
  | none => []

def stageOps (frame : Nat) (reqType : BitVec 32) (sector : BitVec 64) (data : Option (Vector UInt8 512)) : List Op :=
  (List.range (4096 / 8)).flatMap (fun z => [Op.ramW 64 (frame + 8 * z) 0]) ++
    ((List.range REQ_HEADER_LEN).flatMap fun k =>
      [Op.ramW 8 (frame + BLK_HDR_OFF + k) ((reqHeaderEncode reqType sector).getD k 0).toNat]) ++
    dataOps frame reqType data ++ [.ramW 8 (frame + BLK_STATUS_OFF) 0xFF]

def handshakeOps (dev : Nat) : List Op :=
  [.regW (dev + R_STATUS) 0, .regW (dev + R_STATUS) S_ACKNOWLEDGE, .regW (dev + R_STATUS) (S_ACKNOWLEDGE ||| S_DRIVER),
    .regW (dev + R_DEVICE_FEATURES_SEL) 1, .regR (dev + R_DEVICE_FEATURES), .regW (dev + R_DRIVER_FEATURES_SEL) 0,
    .regW (dev + R_DRIVER_FEATURES) 0, .regW (dev + R_DRIVER_FEATURES_SEL) 1,
    .regW (dev + R_DRIVER_FEATURES) VIRTIO_F_VERSION_1_HI,
    .regW (dev + R_STATUS) (S_ACKNOWLEDGE ||| S_DRIVER ||| S_FEATURES_OK), .regR (dev + R_STATUS)]

def queueOps (dev desc avail used : Nat) : List Op :=
  [.regW (dev + R_QUEUE_SEL) 0, .regR (dev + R_QUEUE_NUM_MAX), .regW (dev + R_QUEUE_NUM) CHAN_Q_SIZE,
    .regW (dev + R_QUEUE_DESC_LOW) (.ofNat 32 desc), .regW (dev + R_QUEUE_DESC_HIGH) (.ofNat 32 (desc >>> 32)),
    .regW (dev + R_QUEUE_DRIVER_LOW) (.ofNat 32 avail), .regW (dev + R_QUEUE_DRIVER_HIGH) (.ofNat 32 (avail >>> 32)),
    .regW (dev + R_QUEUE_DEVICE_LOW) (.ofNat 32 used), .regW (dev + R_QUEUE_DEVICE_HIGH) (.ofNat 32 (used >>> 32))]

def descOps (desc addr : Nat) (len : BitVec 32) (flags next : BitVec 16) : List Op :=
  [.ramW 64 desc addr, .ramW 32 (desc + 8) len.toNat, .ramW 16 (desc + 12) flags.toNat,
    .ramW 16 (desc + 14) next.toNat]

def chainOps (frame : Nat) (reqType : BitVec 32) : List Op :=
  descOps (frame + BLK_DESC_OFF) (frame + BLK_HDR_OFF) (.ofNat 32 REQ_HEADER_LEN) VIRTQ_DESC_F_NEXT 1 ++
    if reqType = T_FLUSH then
      descOps (frame + BLK_DESC_OFF + 16) (frame + BLK_STATUS_OFF) 1 VIRTQ_DESC_F_WRITE 0
    else
      descOps (frame + BLK_DESC_OFF + 16) (frame + BLK_DATA_OFF) 512
          (if reqType = T_IN then VIRTQ_DESC_F_WRITE ||| VIRTQ_DESC_F_NEXT else VIRTQ_DESC_F_NEXT) 2 ++
        descOps (frame + BLK_DESC_OFF + 32) (frame + BLK_STATUS_OFF) 1 VIRTQ_DESC_F_WRITE 0

def setupOps (dev frame : Nat) (reqType : BitVec 32) (sector : BitVec 64) (data : Option (Vector UInt8 512)) :
    List Op :=
  stageOps frame reqType sector data ++ (handshakeOps dev ++
    (queueOps dev (frame + BLK_DESC_OFF) (frame + BLK_AVAIL_OFF) (frame + BLK_USED_OFF) ++ (chainOps frame reqType ++
      [.ramW 16 (frame + BLK_AVAIL_OFF) VIRTQ_AVAIL_F_NO_INTERRUPT.toNat, .ramW 16 (frame + BLK_AVAIL_OFF + 4) 0,
        .regW (dev + R_QUEUE_READY) 1, .regR (dev + R_QUEUE_READY)])))

def kickOps (dev frame : Nat) : List Op :=
  [.regW (dev + R_STATUS) (S_ACKNOWLEDGE ||| S_DRIVER ||| S_FEATURES_OK ||| S_DRIVER_OK), .fence,
    .ramW 16 (frame + BLK_AVAIL_OFF + 2) 1, .fence, .regW (dev + R_QUEUE_NOTIFY) 0]

/-- The device takes part up to the kick. -/
structure BlkOpens (d : BlkDevice) : Prop where
  features : d.features &&& VIRTIO_F_VERSION_1_HI ≠ 0
  status : d.status &&& S_FEATURES_OK ≠ 0
  numMax : d.numMax ≠ 0
  ready : d.ready = 1

def tell (ops : List Op) (s : Session 512) : Session 512 := { s with log := s.log ++ ops }

theorem acts_tell : Acts tell where
  nil s := by rw [tell, List.append_nil]
  append us vs s := by rw [tell, tell, tell, List.append_assoc]

variable {dev frame : Nat} {d : BlkDevice}

/-- What a piece of the program writes, and where it fails closed. -/
abbrev Posts (dev frame : Nat) {α : Type} (x : Driver 512 α) (ops : List Op) (c : Prop) (a : α) : Prop :=
  Writes tell (teardown dev frame) .none x ops c a

theorem emit_posts (op : Op) : Posts dev frame (emit op) [op] True () := fun _ => .inl ⟨trivial, rfl⟩

theorem regRead_posts {off : Nat} (answer : BitVec 32) :
    Posts dev frame (regRead dev off answer) [.regR (dev + off)] True answer :=
  .after acts_tell (emit_posts _) (.ret acts_tell answer)

theorem chanFailIf_posts (p : Bool) : Posts dev frame (chanFailIf dev frame p) [] (p = false) () := by
  cases p with
  | true => exact .giveUp acts_tell chanFail_run (by decide)
  | false => exact (Writes.ret acts_tell ()).iff ⟨fun _ => rfl, fun _ => trivial⟩

theorem data_posts (reqType : BitVec 32) (data : Option (Vector UInt8 512)) :
    Posts dev frame (blkData frame reqType data) (dataOps frame reqType data) True () := by
  cases data with
  | none => exact .ret acts_tell ()
  | some d =>
      rw [blkData, dataOps]
      by_cases hout : reqType = T_OUT
      · simp only [if_pos hout]
        exact .forM acts_tell (fun i => emit_posts _) _
      · simp only [if_neg hout]
        exact .ret acts_tell ()

theorem stage_posts (reqType : BitVec 32) (sector : BitVec 64) (data : Option (Vector UInt8 512)) :
    Posts dev frame (blkStage frame reqType sector data) (stageOps frame reqType sector data) True () := by
  rw [stageOps, List.append_assoc, List.append_assoc]
  refine .after acts_tell (.forM acts_tell (fun z => emit_posts _) _) ?_
  refine .after acts_tell (.forM acts_tell (fun k => emit_posts _) _) ?_
  exact .after acts_tell (data_posts reqType data) (emit_posts _)

theorem handshake_posts (d : Device) : Posts dev frame (handshake d dev frame) (handshakeOps dev)
    (d.features &&& VIRTIO_F_VERSION_1_HI ≠ 0 ∧ d.status &&& S_FEATURES_OK ≠ 0) () := by
  have hposts : Posts dev frame (handshake d dev frame) (handshakeOps dev)
      ((d.features &&& VIRTIO_F_VERSION_1_HI == 0) = false ∧ (d.status &&& S_FEATURES_OK == 0) = false) () := by
    iterate 4 refine Writes.after acts_tell (u := [_]) (emit_posts _) ?_
    refine Writes.after acts_tell (u := [_]) (regRead_posts _) ?_
    refine Writes.bind acts_tell (u := []) (chanFailIf_posts _) ?_
    iterate 5 refine Writes.after acts_tell (u := [_]) (emit_posts _) ?_
    exact Writes.after acts_tell (u := [_]) (regRead_posts _) (chanFailIf_posts _)
  exact hposts.iff (by simp)

theorem queueSetup_posts (d : Device) (q desc avail used : Nat) (hq : q = 0) :
    Posts dev frame (queueSetup d dev frame q desc avail used) (queueOps dev desc avail used) (d.numMax q ≠ 0) () := by
  subst hq
  have hposts : Posts dev frame (queueSetup d dev frame 0 desc avail used) (queueOps dev desc avail used)
      ((d.numMax 0 == 0) = false ∧ True) () := by
    refine Writes.after acts_tell (u := [_]) (emit_posts _) (Writes.after acts_tell (u := [_]) (regRead_posts _) ?_)
    refine Writes.bind acts_tell (u := []) (chanFailIf_posts _) ?_
    iterate 6 refine Writes.after acts_tell (u := [_]) (emit_posts _) ?_
    exact emit_posts _
  exact hposts.iff (by simp)

theorem blkDesc_posts (desc addr : Nat) (len : BitVec 32) (flags next : BitVec 16) :
    Posts dev frame (blkDesc desc addr len flags next) (descOps desc addr len flags next) True () := by
  iterate 3 refine Writes.after acts_tell (u := [_]) (emit_posts _) ?_
  exact emit_posts _

theorem blkChain_posts (reqType : BitVec 32) :
    Posts dev frame (blkChain frame reqType) (chainOps frame reqType) True () := by
  refine .after acts_tell (blkDesc_posts _ _ _ _ _) ?_
  by_cases hflush : reqType = T_FLUSH
  · simp only [if_pos hflush]
    exact blkDesc_posts _ _ _ _ _
  · simp only [if_neg hflush]
    exact .after acts_tell (blkDesc_posts _ _ _ _ _) (blkDesc_posts _ _ _ _ _)

theorem queueReady_posts (d : Device) (q : Nat) : Posts dev frame (queueReady d dev frame q)
    [.regW (dev + R_QUEUE_READY) 1, .regR (dev + R_QUEUE_READY)] (d.ready q = 1) () := by
  have hposts : Posts dev frame (queueReady d dev frame q)
      [.regW (dev + R_QUEUE_READY) 1, .regR (dev + R_QUEUE_READY)] ((d.ready q != 1) = false) () :=
    Writes.after acts_tell (u := [_]) (emit_posts _)
      (Writes.after acts_tell (u := [_]) (regRead_posts _) (chanFailIf_posts _))
  exact hposts.iff (by simp)

/-- Up to the kick: the whole list for a device that takes part, its beginning otherwise. -/
theorem blkSetup_posts (d : BlkDevice) (reqType : BitVec 32) (sector : BitVec 64) (data : Option (Vector UInt8 512)) :
    Posts dev frame (blkSetup d dev frame reqType sector data) (setupOps dev frame reqType sector data) (BlkOpens d)
      () := by
  have hposts : Posts dev frame (blkSetup d dev frame reqType sector data) (setupOps dev frame reqType sector data)
      ((d.features &&& VIRTIO_F_VERSION_1_HI ≠ 0 ∧ d.status &&& S_FEATURES_OK ≠ 0) ∧ d.numMax ≠ 0 ∧ d.ready = 1)
      () := by
    refine .after acts_tell (stage_posts reqType sector data) (.bind acts_tell (handshake_posts d.queue) ?_)
    refine .bind acts_tell (queueSetup_posts d.queue 0 _ _ _ rfl) (.after acts_tell (blkChain_posts reqType) ?_)
    iterate 2 refine Writes.after acts_tell (u := [_]) (emit_posts _) ?_
    exact queueReady_posts d.queue 0
  exact hposts.iff ⟨fun ⟨⟨hf, hs⟩, hm, hr⟩ => ⟨hf, hs, hm, hr⟩, fun h => ⟨⟨h.features, h.status⟩, h.numMax, h.ready⟩⟩

theorem blkKick_posts : Posts dev frame (blkKick dev frame) (kickOps dev frame) True () := by
  iterate 4 refine Writes.after acts_tell (u := [_]) (emit_posts _) ?_
  exact emit_posts _

/-! ## From the kick on -/

/-- An access of a request that holds `frame`: registers of its slot, memory inside the frame,
bytes of the sector into the caller's buffer. -/
def Op.Within (dev frame : Nat) : Op → Prop
  | .alloc _ | .free _ => False
  | .regW pa _ | .regR pa => dev ≤ pa ∧ pa + 4 ≤ dev + SLOT_STRIDE
  | .ramW width pa _ => frame ≤ pa ∧ pa + width / 8 ≤ frame + 4096
  | .ramR width pa => frame ≤ pa ∧ pa + width / 8 ≤ frame + 4096
  | .store i pa _ => i < 512 ∧ pa = frame + BLK_DATA_OFF + i
  | _ => True

def InFrame (dev frame : Nat) (s s' : Session 512) : Prop := ∃ ops, s' = tell ops s ∧ ∀ op ∈ ops, op.Within dev frame

instance (dev frame : Nat) : IsPreorder (Session 512) (InFrame dev frame) where
  refl s := ⟨[], (acts_tell.nil s).symm, fun _ h => absurd h List.not_mem_nil⟩
  trans := by
    rintro s s₁ s₂ ⟨ops, rfl, hops⟩ ⟨ops', rfl, hops'⟩
    exact ⟨ops ++ ops', (acts_tell.append ops ops' s).symm, List.forall_mem_append.mpr ⟨hops, hops'⟩⟩

theorem emit_within {op : Op} (h : op.Within dev frame) : Does (InFrame dev frame) (emit op : Driver 512 Unit) () :=
  fun s => ⟨tell [op] s, ⟨[op], rfl, List.forall_mem_singleton.mpr h⟩, rfl⟩

/-- A wait reads the used index until it differs or the cap is reached. -/
theorem poll_within {used spins : Nat} {answer : Nat → BitVec 16} {seen : BitVec 16}
    (hread : Op.Within dev frame (.ramR 16 (used + 2))) (hcap : spins < POLL_CAP) :
    Ends (InFrame dev frame) (teardown dev frame) .none (poll dev frame used answer seen spins : Driver 512 Unit)
      (∃ k, spins ≤ k ∧ k < POLL_CAP ∧ answer k ≠ seen) () := by
  induction hleft : POLL_CAP - spins generalizing spins with
  | zero => omega
  | succ left ih =>
      rw [poll]
      refine .after (.bind (emit_within hread) (.ret (answer spins))) ?_
      by_cases hseen : answer spins ≠ seen
      · rw [if_pos hseen]
        exact (Does.ret ()).ends ⟨spins, le_rfl, hcap, hseen⟩
      · have hlater : ∀ k, spins ≤ k → answer k ≠ seen → spins + 1 ≤ k := fun k hk hans =>
          hk.lt_of_ne fun heq => hseen (heq ▸ hans)
        rw [if_neg hseen]
        by_cases hlast : POLL_CAP ≤ spins + 1
        · rw [if_pos hlast]
          refine .giveUp chanFail_run ?_
          rintro ⟨k, hk, hlt, hans⟩
          have := hlater k hk hans
          omega
        · rw [if_neg hlast]
          refine (ih (by omega) (by omega)).iff ⟨?_, ?_⟩
          · rintro ⟨k, hk, hrest⟩
            exact ⟨k, by omega, hrest⟩
          · rintro ⟨k, hk, hlt, hans⟩
            exact ⟨k, hlater k hk hans, hlt, hans⟩

theorem storeResp_run {n i : Nat} (hi : i < n) (pa : Nat) (v : UInt8) (s : Session n) :
    storeResp i pa v s = .ok () ⟨s.log ++ [.ramR 8 pa, .store i pa v], s.resp.set i v hi⟩ := by
  refine (bind_ok (x := (emit (.ramR 8 pa) : Driver n Unit)) rfl).trans ?_
  rw [dif_pos hi]
  show EStateM.Result.ok () (Session.mk (s.log ++ [_] ++ [_]) _) = _
  rw [List.append_assoc]
  rfl

def copyOps (frame : Nat) (d : BlkDevice) (i : Nat) : List Op :=
  [.ramR 8 (frame + BLK_DATA_OFF + i), .store i (frame + BLK_DATA_OFF + i) (d.data.toList.getD i 0)]

theorem data_getD {n : Nat} (v : Vector UInt8 n) {i : Nat} (hi : i < n) : v.toList.getD i 0 = v[i] := by
  rw [List.getD_eq_getElem?_getD, List.getElem?_eq_getElem (by simpa using hi), Option.getD_some, Vector.getElem_toList]

/-- The bytes at the listed places become the device's. -/
theorem copy_run (d : BlkDevice) (frame : Nat) {is : List Nat} (his : ∀ i ∈ is, i < 512) (s : Session 512) :
    ∃ resp, (is.forM fun i => storeResp i (frame + BLK_DATA_OFF + i) (d.data.toList.getD i 0) : Driver 512 Unit) s =
        .ok () ⟨s.log ++ is.flatMap (copyOps frame d), resp⟩ ∧
      ∀ i (hi : i < 512), resp[i] = if i ∈ is then d.data[i] else s.resp[i] := by
  induction is generalizing s with
  | nil => exact ⟨s.resp, by rw [List.flatMap_nil, List.append_nil]; rfl, fun i _ => (if_neg List.not_mem_nil).symm⟩
  | cons j is ih =>
      have hj : j < 512 := his j List.mem_cons_self
      obtain ⟨resp, hrun, hresp⟩ := ih (fun i hi => his i (List.mem_cons_of_mem _ hi))
        ⟨s.log ++ copyOps frame d j, s.resp.set j (d.data.toList.getD j 0) hj⟩
      refine ⟨resp, ?_, fun i hi => ?_⟩
      · refine (bind_ok (storeResp_run hj _ _ s)).trans (hrun.trans ?_)
        rw [List.flatMap_cons, ← List.append_assoc]
      · rw [hresp i hi]
        by_cases hij : i = j
        · subst hij
          rw [if_pos List.mem_cons_self, Vector.getElem_set_self, data_getD d.data hi, ite_self]
        · rw [Vector.getElem_set_ne _ _ (Ne.symm hij)]
          simp only [List.mem_cons, hij, false_or]

/-- The buffer of a completed read. -/
theorem blkCopy_run (d : BlkDevice) (frame : Nat) (wanted : Bool) (s : Session 512) :
    ∃ ops, (∀ op ∈ ops, op.Within dev frame) ∧
      blkCopy d frame wanted s = .ok () ⟨s.log ++ ops, if wanted then d.data else s.resp⟩ := by
  cases wanted with
  | false => exact ⟨[], fun _ h => absurd h List.not_mem_nil, by rw [List.append_nil]; rfl⟩
  | true =>
      obtain ⟨resp, hrun, hresp⟩ := copy_run d frame (fun i hi => List.mem_range.mp hi) s
      have hall : resp = d.data := Vector.ext fun i hi => by rw [hresp i hi, if_pos (List.mem_range.mpr hi)]
      subst hall
      refine ⟨(List.range 512).flatMap (copyOps frame d), ?_, hrun⟩
      · intro op hop
        obtain ⟨i, hi, hop⟩ := List.mem_flatMap.mp hop
        have hi := List.mem_range.mp hi
        simp only [copyOps, List.mem_cons, List.not_mem_nil, or_false] at hop
        rcases hop with rfl | rfl
        · simp only [Op.Within, BLK_DATA_OFF]
          omega
        · exact ⟨hi, rfl⟩

/-- With an answered wait the request completes; without one it gives up. -/
theorem blkComplete_ends (d : BlkDevice) (reqType : BitVec 32) (hasData : Bool) (s : Session 512) :
    ∃ ops, (∀ op ∈ ops, op.Within dev frame) ∧
      (Answers d.usedIdx 0 ∧ blkComplete d dev frame reqType hasData s =
          .ok (statusDecode d.st == S_OK) ⟨s.log ++ ops ++ [.regW (dev + R_STATUS) 0, .free frame],
            if statusDecode d.st == S_OK && reqType == T_IN && hasData then d.data else s.resp⟩ ∨
        ¬ Answers d.usedIdx 0 ∧
          blkComplete d dev frame reqType hasData s = .error .none (teardown dev frame (tell ops s))) := by
  have hread : Op.Within dev frame (.ramR 16 (frame + BLK_USED_OFF + 2)) := by
    simp only [Op.Within, BLK_USED_OFF]
    omega
  obtain ⟨-, ⟨ops, rfl, hops⟩, ⟨⟨k, -, hans⟩, hrun⟩ | ⟨hsilent, hrun⟩⟩ :=
    @poll_within dev frame _ _ d.usedIdx 0 hread (by decide : 0 < POLL_CAP) s
  · have hstatus : Op.Within dev frame (.ramR 8 (frame + BLK_STATUS_OFF)) := by
      simp only [Op.Within, BLK_STATUS_OFF]
      omega
    obtain ⟨copied, hcopied, hcopy⟩ := blkCopy_run d frame (statusDecode d.st == S_OK && reqType == T_IN && hasData)
      (tell [.ramR 8 (frame + BLK_STATUS_OFF)] (tell [.fence] (tell ops s)))
    refine ⟨ops ++ [.fence, .ramR 8 (frame + BLK_STATUS_OFF)] ++ copied, ?_, .inl ⟨⟨k, hans⟩, ?_⟩⟩
    · simp only [List.forall_mem_append, List.forall_mem_cons]
      exact ⟨⟨hops, trivial, hstatus, fun _ h => absurd h List.not_mem_nil⟩, hcopied⟩
    · rw [blkComplete, bind_ok hrun]
      refine (bind_ok (x := dmaFence) rfl).trans ((bind_ok (x := ramR8 _ d.st) rfl).trans ((bind_ok hcopy).trans ?_))
      show EStateM.Result.ok _ (Session.mk (s.log ++ ops ++ [_] ++ [_] ++ copied ++ [_] ++ [_]) _) = _
      simp only [List.append_assoc, List.cons_append, List.nil_append]
      rfl
  · refine ⟨ops, hops, .inr ⟨fun ⟨k, hk⟩ => hsilent ⟨k, Nat.zero_le k, hk⟩, ?_⟩⟩
    rw [blkComplete, bind_error hrun]

/-! ## The call -/

theorem regW_within {off : Nat} (hoff : off + 4 ≤ SLOT_STRIDE) (v : BitVec 32) :
    Op.Within dev frame (.regW (dev + off) v) :=
  ⟨Nat.le_add_right dev off, by rw [Nat.add_assoc]; exact Nat.add_le_add_left hoff dev⟩

theorem regR_within {off : Nat} (hoff : off + 4 ≤ SLOT_STRIDE) : Op.Within dev frame (.regR (dev + off)) :=
  ⟨Nat.le_add_right dev off, by rw [Nat.add_assoc]; exact Nat.add_le_add_left hoff dev⟩

theorem ramW_within {width off v : Nat} (hoff : off + width / 8 ≤ 4096) :
    Op.Within dev frame (.ramW width (frame + off) v) :=
  ⟨Nat.le_add_right frame off, by rw [Nat.add_assoc]; exact Nat.add_le_add_left hoff frame⟩

theorem flatMap_within {is : List Nat} {g : Nat → Op} (h : ∀ i ∈ is, (g i).Within dev frame) :
    ∀ op ∈ is.flatMap fun i => [g i], op.Within dev frame := by
  intro op hop
  obtain ⟨i, hi, hop⟩ := List.mem_flatMap.mp hop
  rw [List.mem_singleton.mp hop]
  exact h i hi

theorem stageOps_within (reqType : BitVec 32) (sector : BitVec 64) (data : Option (Vector UInt8 512)) :
    ∀ op ∈ stageOps frame reqType sector data, op.Within dev frame := by
  have hdata : ∀ op ∈ dataOps frame reqType data, op.Within dev frame := by
    cases data with
    | none => exact fun _ h => absurd h List.not_mem_nil
    | some d =>
        rw [dataOps]
        split
        · refine flatMap_within fun i hi => ?_
          have := List.mem_range.mp hi
          rw [Nat.add_assoc]
          exact ramW_within (by simp only [BLK_DATA_OFF]; omega)
        · exact fun _ h => absurd h List.not_mem_nil
  rw [stageOps, List.forall_mem_append, List.forall_mem_append, List.forall_mem_append, List.forall_mem_singleton]
  refine ⟨⟨⟨flatMap_within fun z hz => ?_, flatMap_within fun k hk => ?_⟩, hdata⟩, ?_⟩
  · have := List.mem_range.mp hz
    exact ramW_within (by omega)
  · have : k < 16 := List.mem_range.mp hk
    rw [Nat.add_assoc]
    exact ramW_within (by simp only [BLK_HDR_OFF]; omega)
  · exact ramW_within (by decide)

theorem descOps_within {off : Nat} (hoff : off + 16 ≤ 4096) (addr : Nat) (len : BitVec 32) (flags next : BitVec 16) :
    ∀ op ∈ descOps (frame + off) addr len flags next, op.Within dev frame := by
  simp only [descOps, List.forall_mem_cons, Nat.add_assoc]
  exact ⟨ramW_within (by omega), ramW_within (by omega), ramW_within (by omega), ramW_within (by omega),
    fun _ h => absurd h List.not_mem_nil⟩

theorem chainOps_within (reqType : BitVec 32) : ∀ op ∈ chainOps frame reqType, op.Within dev frame := by
  have hdesc {off : Nat} (hoff : off + 16 ≤ 4096) := @descOps_within dev frame off hoff
  rw [chainOps, List.forall_mem_append]
  refine ⟨hdesc (by decide) _ _ _ _, ?_⟩
  split
  · exact hdesc (by decide : BLK_DESC_OFF + 16 + 16 ≤ 4096) _ _ _ _
  · exact List.forall_mem_append.mpr ⟨hdesc (by decide : BLK_DESC_OFF + 16 + 16 ≤ 4096) _ _ _ _,
      hdesc (by decide : BLK_DESC_OFF + 32 + 16 ≤ 4096) _ _ _ _⟩

theorem setupOps_within (reqType : BitVec 32) (sector : BitVec 64) (data : Option (Vector UInt8 512)) :
    ∀ op ∈ setupOps dev frame reqType sector data, op.Within dev frame := by
  simp only [setupOps, List.forall_mem_append]
  refine ⟨stageOps_within reqType sector data, ?_, ?_, chainOps_within reqType, ?_⟩
  · simp (disch := decide) [handshakeOps, regW_within, regR_within]
  · simp (disch := decide) [queueOps, regW_within, regR_within]
  · simp only [List.forall_mem_cons, Nat.add_assoc]
    exact ⟨ramW_within (by decide), ramW_within (by decide), regW_within (by decide) _, regR_within (by decide),
      fun _ h => absurd h List.not_mem_nil⟩

theorem kickOps_within : ∀ op ∈ kickOps dev frame, op.Within dev frame := by
  simp only [kickOps, List.forall_mem_cons, Nat.add_assoc]
  exact ⟨regW_within (by decide) _, trivial, ramW_within (by decide), trivial, regW_within (by decide) _,
    fun _ h => absurd h List.not_mem_nil⟩

variable {host : Host} {slot : BitVec 32} {k : BlkCall}

/-- The device's registers. -/
def slotAt (base : Nat) (slot : BitVec 32) : Nat := base + slot.toNat * SLOT_STRIDE

theorem blkRequest_refused (d : BlkDevice) (slot : BitVec 32) (k : BlkCall)
    (h : mapWindow host = none ∨ host.frameAlloc = none) :
    k.run host d slot = some (false, ⟨[], k.buffer⟩) := by
  rw [BlkCall.run, blkRequest]
  rcases h with hwindow | hframe
  · rw [hwindow]
    rfl
  · rw [hframe]
    cases mapWindow host with
    | none => rfl
    | some base => rfl

/-- The accesses of a call that is kicked, up to the wait. -/
def BlkCall.posted (k : BlkCall) (dev frame : Nat) : List Op :=
  setupOps dev frame k.reqType k.sector k.data ++ kickOps dev frame

theorem BlkCall.posted_within (k : BlkCall) : ∀ op ∈ k.posted dev frame, op.Within dev frame :=
  List.forall_mem_append.mpr ⟨setupOps_within _ _ _, kickOps_within⟩

/-- How a call goes that has its window and its frame: refused by the device, without an answer, or
completed. -/
theorem blkRequest_cases (d : BlkDevice) (slot : BitVec 32) (k : BlkCall) {base : Nat}
    (hwindow : mapWindow host = some base) (hframe : host.frameAlloc = some frame) :
    ∃ ops, (∀ op ∈ ops, op.Within (slotAt base slot) frame) ∧
      ((¬ BlkOpens d ∧ ops <+: setupOps (slotAt base slot) frame k.reqType k.sector k.data ∨
          BlkOpens d ∧ ¬ Answers d.usedIdx 0 ∧ k.posted (slotAt base slot) frame <+: ops) ∧
        k.run host d slot = some (false, teardown (slotAt base slot) frame ⟨.alloc frame :: ops, k.buffer⟩) ∨
      (BlkOpens d ∧ Answers d.usedIdx 0 ∧ k.posted (slotAt base slot) frame <+: ops) ∧
        k.run host d slot = some (statusDecode d.st == S_OK,
          ⟨.alloc frame :: ops ++ [.regW (slotAt base slot + R_STATUS) 0, .free frame],
            if statusDecode d.st == S_OK && k.reqType == T_IN && k.data.isSome then d.data else k.buffer⟩)) := by
  have hrun : blkRequest host d slot k.reqType k.sector k.data ⟨[], k.buffer⟩ =
      (do
        blkSetup d (slotAt base slot) frame k.reqType k.sector k.data
        blkKick (slotAt base slot) frame
        blkComplete d (slotAt base slot) frame k.reqType k.data.isSome : Driver 512 Bool)
        ⟨[.alloc frame], k.buffer⟩ := by
    rw [blkRequest, hwindow, hframe]
    exact bind_ok (x := emit (.alloc frame)) rfl
  rw [BlkCall.run, hrun]
  rcases blkSetup_posts d k.reqType k.sector k.data ⟨[.alloc frame], k.buffer⟩ with
    ⟨hopens, hsetup⟩ | ⟨hopens, pre, hpre, hsetup⟩
  · rw [bind_ok hsetup]
    obtain ⟨-, hkick⟩ | ⟨hfalse, -⟩ := @blkKick_posts (slotAt base slot) frame
      (tell (setupOps (slotAt base slot) frame k.reqType k.sector k.data) ⟨[.alloc frame], k.buffer⟩)
    · rw [bind_ok hkick, ← acts_tell.append]
      obtain ⟨ops, hops, ⟨hans, hdone⟩ | ⟨hans, hdone⟩⟩ := @blkComplete_ends (slotAt base slot) frame d
        k.reqType k.data.isSome (tell (k.posted (slotAt base slot) frame) ⟨[.alloc frame], k.buffer⟩)
      · refine ⟨k.posted (slotAt base slot) frame ++ ops, List.forall_mem_append.mpr ⟨k.posted_within, hops⟩,
          .inr ⟨⟨hopens, hans, List.prefix_append _ _⟩, ?_⟩⟩
        rw [BlkCall.posted] at hdone ⊢
        rw [hdone]
        simp only [blkReturned, tell, List.append_assoc, List.cons_append, List.nil_append]
      · refine ⟨k.posted (slotAt base slot) frame ++ ops, List.forall_mem_append.mpr ⟨k.posted_within, hops⟩,
          .inl ⟨.inr ⟨hopens, hans, List.prefix_append _ _⟩, ?_⟩⟩
        rw [BlkCall.posted] at hdone ⊢
        rw [hdone]
        simp only [blkReturned, tell, List.append_assoc, List.cons_append, List.nil_append]
    · exact absurd trivial hfalse
  · refine ⟨pre, fun op hop => setupOps_within _ _ _ op (hpre.subset hop), .inl ⟨.inl ⟨hopens, hpre⟩, ?_⟩⟩
    rw [bind_error hsetup]
    rfl

/-- The device serves the request it is handed, and reports success. -/
structure BlkServed (host : Host) (d : BlkDevice) : Prop where
  window : (mapWindow host).isSome
  frame : host.frameAlloc.isSome
  opens : BlkOpens d
  answers : Answers d.usedIdx 0
  status : d.st = S_OK

/-- What a call may leave behind: nothing at all where it does not begin, and otherwise accesses of
its own slot and frame, the device reset or marked as failed, and the frame given back. -/
structure BlkLawful (host : Host) (d : BlkDevice) (slot : BitVec 32) (k : BlkCall) (ok : Bool) (s : Session 512) :
    Prop where
  success : ok = true ↔ BlkServed host d
  buffer : s.resp = if ok = true ∧ k.reqType = T_IN then d.data else k.buffer
  log : s.log = [] ∨ ∃ base frame ops v, mapWindow host = some base ∧ host.frameAlloc = some frame ∧
    (∀ op ∈ ops, op.Within (slotAt base slot) frame) ∧
    s.log = .alloc frame :: ops ++ [.regW (slotAt base slot + R_STATUS) v, .free frame] ∧
    (v = 0 ∧ BlkOpens d ∧ Answers d.usedIdx 0 ∨
      v = S_ACKNOWLEDGE ||| S_DRIVER ||| S_FAILED ∧ ¬ (BlkOpens d ∧ Answers d.usedIdx 0))

theorem statusDecode_ok (b : UInt8) : statusDecode b = S_OK ↔ b = S_OK := by
  rw [statusDecode]
  constructor
  · intro h
    by_contra hne
    rw [if_neg hne] at h
    split at h
    · exact absurd h (by decide)
    · exact absurd h (by decide)
  · exact fun h => if_pos h

theorem BlkCall.data_of_read (k : BlkCall) (h : k.reqType = T_IN) : k.data.isSome = true := by
  cases k with
  | read sector buf => rfl
  | write sector buf => rfl
  | flush => exact absurd h (by decide)

/-- **One call, whatever the device shows.** -/
theorem blk_lawful (host : Host) (d : BlkDevice) (slot : BitVec 32) (k : BlkCall) :
    ∃ ok s, k.run host d slot = some (ok, s) ∧ BlkLawful host d slot k ok s := by
  by_cases hbegins : mapWindow host = none ∨ host.frameAlloc = none
  · refine ⟨false, _, blkRequest_refused d slot k hbegins, ⟨fun h => (nomatch h), fun h => ?_⟩, rfl, .inl rfl⟩
    rcases hbegins with hnone | hnone
    · exact absurd h.window (by rw [hnone]; decide)
    · exact absurd h.frame (by rw [hnone]; decide)
  · obtain ⟨hwindow, hframe⟩ := not_or.mp hbegins
    obtain ⟨base, hwindow⟩ := Option.ne_none_iff_exists'.mp hwindow
    obtain ⟨frame, hframe⟩ := Option.ne_none_iff_exists'.mp hframe
    obtain ⟨ops, hops, ⟨hfails, hrun⟩ | ⟨⟨hopens, hans, -⟩, hrun⟩⟩ := blkRequest_cases d slot k hwindow hframe
    · have hnot : ¬ (BlkOpens d ∧ Answers d.usedIdx 0) := by
        rintro ⟨hopens, hans⟩
        exact hfails.elim (fun h => h.1 hopens) fun h => h.2.1 hans
      exact ⟨false, _, hrun, ⟨fun h => (nomatch h), fun h => absurd ⟨h.opens, h.answers⟩ hnot⟩, rfl,
        .inr ⟨base, frame, ops, _, hwindow, hframe, hops, rfl, .inr ⟨rfl, hnot⟩⟩⟩
    · refine ⟨_, _, hrun, ⟨fun h => ?_, fun h => ?_⟩, ?_,
        .inr ⟨base, frame, ops, 0, hwindow, hframe, hops, rfl, .inl ⟨rfl, hopens, hans⟩⟩⟩
      · exact ⟨by rw [hwindow]; rfl, by rw [hframe]; rfl, hopens, hans, (statusDecode_ok d.st).mp (beq_iff_eq.mp h)⟩
      · exact beq_iff_eq.mpr ((statusDecode_ok d.st).mpr h.status)
      · by_cases hread : k.reqType = T_IN
        · simp [hread, k.data_of_read hread]
        · simp [hread]

end Yuva.Hal
