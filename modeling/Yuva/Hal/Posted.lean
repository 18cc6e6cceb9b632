/-
# `Yuva.Hal.Posted` — what the block device finds in the queue

The other side of `Yuva.Hal.Blk`.  The device knows the addresses its registers were given and the
memory behind them: `asked` walks the available ring and the chain of descriptors and reads the
request off them, as a device of the same specification does; `Serves` is such a device over a disk.

`asked_posted` says that it finds the request of the call, whatever stood in the frame before.
`blk_refines` is the refinement: calls over such a device answer like a disk whose sectors are read
and written directly.
-/
import Yuva.Hal.Blk
import Yuva.Lib.Overlay
import Yuva.Lib.Run
import Yuva.Lib.Volatile

namespace Yuva.Hal

open Yuva.Bytes Yuva.Overlay Yuva.Run

/-! ## Memory and registers after a list of accesses -/

abbrev Memory := Nat → UInt8

def Op.piece : Op → Option (Piece UInt8)
  | .ramW width pa v => some (pa, le (width / 8) v)
  | _ => none

def pieces (ops : List Op) : List (Piece UInt8) := ops.filterMap Op.piece

/-- Memory with the pieces laid over it. -/
def laid (mem : Memory) (ps : List (Piece UInt8)) : Memory := fun a => (overlay ps a).getD (mem a)

def bytesAt (mem : Memory) (a n : Nat) : List UInt8 := (List.range n).map fun i => mem (a + i)

def wordAt (mem : Memory) (a n : Nat) : Nat := unle (bytesAt mem a n)

def Op.sets (pa : Nat) : Op → Option (BitVec 32)
  | .regW at₀ v => if at₀ = pa then some v else none
  | _ => none

/-- The value written last. -/
def lastSet (ops : List Op) (pa : Nat) : Option (BitVec 32) := (ops.filterMap (Op.sets pa)).getLast?

/-- An address handed over in two halves. -/
def addrAt (ops : List Op) (low high : Nat) : Nat :=
  ((lastSet ops high).getD 0).toNat * 2 ^ 32 + ((lastSet ops low).getD 0).toNat

/-! ## The walk -/

/-- A part of a chain of descriptors. -/
structure Area where
  addr : Nat
  len : Nat
  writable : Bool
  deriving DecidableEq, Repr

/-- The chain from entry `i` on, no longer than the queue. -/
def chainAt (mem : Memory) (table : Nat) : Nat → Nat → List Area
  | 0, _ => []
  | fuel + 1, i =>
      let entry := table + 16 * i
      let flags := BitVec.ofNat 16 (wordAt mem (entry + 12) 2)
      ⟨wordAt mem entry 8, wordAt mem (entry + 8) 4, flags &&& VIRTQ_DESC_F_WRITE != 0⟩ ::
        if flags &&& VIRTQ_DESC_F_NEXT = 0 then [] else chainAt mem table fuel (wordAt mem (entry + 14) 2)

/-- A request as the device finds it: the header's type and sector, the bytes behind the header and
the addresses it may write. -/
structure Asked where
  reqType : BitVec 32
  sector : BitVec 64
  payload : List UInt8
  room : List Nat
  deriving DecidableEq, Repr

def Asked.ofChain (mem : Memory) (areas : List Area) : Asked :=
  let out := (areas.filter fun x => !x.writable).flatMap fun x => bytesAt mem x.addr x.len
  ⟨.ofNat 32 (unle (slice out 0 4)), .ofNat 64 (unle (slice out 8 8)), out.drop REQ_HEADER_LEN,
    (areas.filter fun x => x.writable).flatMap fun x => (List.range x.len).map (x.addr + ·)⟩

/-- The one request behind the index of the available ring. -/
def asked (mem : Memory) (ops : List Op) (dev : Nat) : Option Asked :=
  let avail := addrAt ops (dev + R_QUEUE_DRIVER_LOW) (dev + R_QUEUE_DRIVER_HIGH)
  if wordAt mem (avail + 2) 2 = 0 then none
  else some (.ofChain mem (chainAt mem (addrAt ops (dev + R_QUEUE_DESC_LOW) (dev + R_QUEUE_DESC_HIGH))
    CHAN_Q_SIZE.toNat (wordAt mem (avail + 4) 2)))

/-! ## What the call writes -/

variable {dev frame : Nat} {mem : Memory} {k : BlkCall}

theorem pieces_append (ops ops' : List Op) : pieces (ops ++ ops') = pieces ops ++ pieces ops' :=
  List.filterMap_append

theorem bytesAt_laid {ps : List (Piece UInt8)} {a n : Nat} {bs : List UInt8} (h : Shows ps a bs) (hn : bs.length = n) :
    bytesAt (laid mem ps) a n = bs := by
  subst hn
  refine List.ext_getElem (by simp [bytesAt]) fun i hi hi' => ?_
  simp [bytesAt, laid, h i bs[i] (List.getElem?_eq_getElem hi')]

theorem wordAt_laid {ps : List (Piece UInt8)} {a n v : Nat} (h : Shows ps a (le n v)) (hv : v < 256 ^ n) :
    wordAt (laid mem ps) a n = v := by
  rw [wordAt, bytesAt_laid h (length_le n v), unle_le, Nat.mod_eq_of_lt hv]

theorem pieces_row (n width at₀ : Nat) (g : Nat → Nat) :
    pieces ((List.range n).flatMap fun i => [Op.ramW width (at₀ + i * (width / 8)) (g i)]) =
      (List.range n).map fun i => (at₀ + i * (width / 8), le (width / 8) (g i)) := by
  rw [pieces, ← List.map_eq_flatMap, List.filterMap_map]
  exact congrFun (List.filterMap_eq_map (f := fun i => (at₀ + i * (width / 8), le (width / 8) (g i)))) _

theorem byteRow {bs : List UInt8} {n : Nat} (hn : bs.length = n) :
    (List.range n).flatMap (fun i => le 1 (bs.getD i 0).toNat) = bs := by
  subst hn
  have hone (b : UInt8) : le 1 b.toNat = [b] := by simp [le]
  simp only [hone, ← List.map_eq_flatMap]
  exact List.ext_getElem (by simp) fun i _ hi => by simp [List.getElem?_eq_getElem hi]

/-! The pieces of a call, in the order they are written. -/

def zeroPieces (frame : Nat) : List (Piece UInt8) := (List.range (4096 / 8)).map fun z => (frame + z * 8, le 8 0)

def bytePieces (at₀ : Nat) (bs : List UInt8) : List (Piece UInt8) :=
  (List.range bs.length).map fun i => (at₀ + i * 1, le 1 (bs.getD i 0).toNat)

/-- The sector of a write. -/
def BlkCall.payload : BlkCall → List UInt8
  | .write _ buf => buf.toList
  | _ => []

/-- An entry of the descriptor table. -/
structure Desc where
  addr : Nat
  len : BitVec 32
  flags : BitVec 16
  next : BitVec 16

def Desc.pieces (entry : Nat) (x : Desc) : List (Piece UInt8) :=
  [(entry, le 8 x.addr), (entry + 8, le 4 x.len.toNat), (entry + 12, le 2 x.flags.toNat),
    (entry + 14, le 2 x.next.toNat)]

/-- The entries from number `n` on. -/
def tablePieces (table : Nat) : Nat → List Desc → List (Piece UInt8)
  | _, [] => []
  | n, x :: xs => x.pieces (table + 16 * n) ++ tablePieces table (n + 1) xs

def headerDesc (frame : Nat) : Desc := ⟨frame + BLK_HDR_OFF, .ofNat 32 REQ_HEADER_LEN, VIRTQ_DESC_F_NEXT, 1⟩

def dataDesc (frame : Nat) (reqType : BitVec 32) : Desc where
  addr := frame + BLK_DATA_OFF
  len := 512
  flags := if reqType = T_IN then VIRTQ_DESC_F_WRITE ||| VIRTQ_DESC_F_NEXT else VIRTQ_DESC_F_NEXT
  next := 2

def statusDesc (frame : Nat) : Desc := ⟨frame + BLK_STATUS_OFF, 1, VIRTQ_DESC_F_WRITE, 0⟩

def descs (frame : Nat) (reqType : BitVec 32) : List Desc :=
  if reqType = T_FLUSH then [headerDesc frame, statusDesc frame]
  else [headerDesc frame, dataDesc frame reqType, statusDesc frame]

def availPieces (frame : Nat) : List (Piece UInt8) :=
  [(frame + 0x40, le 2 1), (frame + 0x44, le 2 0), (frame + 0x42, le 2 1)]

theorem payload_eq (k : BlkCall) (frame : Nat) :
    pieces (dataOps frame k.reqType k.data) = bytePieces (frame + BLK_DATA_OFF) k.payload := by
  cases k with
  | read sector buf => rfl
  | flush => rfl
  | write sector buf =>
      have hrow := pieces_row 512 8 (frame + BLK_DATA_OFF) fun i => (buf.toList.getD i 0).toNat
      simp only [Nat.reduceDiv, Nat.mul_one] at hrow
      simp only [BlkCall.reqType, BlkCall.data, dataOps, BlkCall.payload, bytePieces, Vector.length_toList, Nat.mul_one,
        if_true, hrow]

theorem pieces_stage (k : BlkCall) (frame : Nat) : pieces (stageOps frame k.reqType k.sector k.data) =
    zeroPieces frame ++ (bytePieces (frame + BLK_HDR_OFF) (reqHeaderEncode k.reqType k.sector) ++
      (bytePieces (frame + BLK_DATA_OFF) k.payload ++ [(frame + BLK_STATUS_OFF, [0xFF])])) := by
  have hzero := pieces_row (4096 / 8) 64 frame fun _ => 0
  have hhdr := pieces_row REQ_HEADER_LEN 8 (frame + BLK_HDR_OFF) fun i =>
    ((reqHeaderEncode k.reqType k.sector).getD i 0).toNat
  have hlen : (reqHeaderEncode k.reqType k.sector).length = REQ_HEADER_LEN := by simp [reqHeaderEncode, REQ_HEADER_LEN]
  simp only [Nat.reduceDiv, Nat.mul_one, Nat.mul_comm _ 8] at hzero hhdr
  rw [stageOps, pieces_append, pieces_append, pieces_append, payload_eq, hzero, hhdr]
  simp only [zeroPieces, bytePieces, hlen, Nat.mul_one, Nat.mul_comm _ 8, List.append_assoc, Nat.reduceDiv]
  rfl

theorem pieces_chain (frame : Nat) (reqType : BitVec 32) :
    pieces (chainOps frame reqType) = tablePieces frame 0 (descs frame reqType) := by
  rw [chainOps, descs, pieces_append]
  by_cases hflush : reqType = T_FLUSH
  · simp only [if_pos hflush]
    rfl
  · simp only [if_neg hflush, pieces_append]
    rfl

theorem pieces_posted (k : BlkCall) (dev frame : Nat) : pieces (k.posted dev frame) =
    zeroPieces frame ++ (bytePieces (frame + BLK_HDR_OFF) (reqHeaderEncode k.reqType k.sector) ++
      (bytePieces (frame + BLK_DATA_OFF) k.payload ++ ([(frame + BLK_STATUS_OFF, [0xFF])] ++
        (tablePieces frame 0 (descs frame k.reqType) ++ availPieces frame)))) := by
  have hhandshake : pieces (handshakeOps dev) = [] := rfl
  have hqueue : pieces (queueOps dev (frame + BLK_DESC_OFF) (frame + BLK_AVAIL_OFF) (frame + BLK_USED_OFF)) = [] := rfl
  simp only [BlkCall.posted, setupOps, pieces_append, pieces_stage, pieces_chain, hhandshake, hqueue, List.nil_append,
    List.append_assoc]
  rfl

theorem table_reach {table n : Nat} {xs : List Desc} {q : Piece UInt8} (hq : q ∈ tablePieces table n xs) :
    table + 16 * n ≤ q.1 ∧ q.1 + q.2.length ≤ table + 16 * (n + xs.length) := by
  induction xs generalizing n with
  | nil => exact absurd hq List.not_mem_nil
  | cons x xs ih =>
      rw [List.length_cons]
      rcases List.mem_append.mp hq with hq | hq
      · simp only [Desc.pieces, List.mem_cons, List.not_mem_nil, or_false] at hq
        rcases hq with rfl | rfl | rfl | rfl <;> simp only [length_le] <;> omega
      · have := ih hq
        omega

theorem descs_length (frame : Nat) (reqType : BitVec 32) : (descs frame reqType).length ≤ 3 := by
  rw [descs]
  split <;> simp

/-- Descriptors and available ring lie in the first 72 bytes of the frame. -/
theorem late_reach {q : Piece UInt8} {reqType : BitVec 32}
    (hq : q ∈ tablePieces frame 0 (descs frame reqType) ++ availPieces frame) : q.1 + q.2.length ≤ frame + 0x48 := by
  rcases List.mem_append.mp hq with hq | hq
  · have := descs_length frame reqType
    have := table_reach hq
    omega
  · simp only [availPieces, List.mem_cons, List.not_mem_nil, or_false] at hq
    rcases hq with rfl | rfl | rfl <;> simp only [length_le] <;> omega

theorem byte_reach {at₀ : Nat} {bs : List UInt8} {q : Piece UInt8} (hq : q ∈ bytePieces at₀ bs) :
    at₀ ≤ q.1 ∧ q.1 + q.2.length ≤ at₀ + bs.length := by
  obtain ⟨i, hi, rfl⟩ := List.mem_map.mp hq
  have := List.mem_range.mp hi
  simp only [length_le]
  omega

theorem bytes_shown (at₀ : Nat) (bs : List UInt8) : Shows (bytePieces at₀ bs) at₀ bs := by
  have hrow := Shows.row (g := fun i => le 1 (bs.getD i 0).toNat) (n := bs.length) (w := 1)
    (fun _ _ => length_le 1 _) at₀
  rwa [byteRow rfl] at hrow

theorem zeros_shown (frame : Nat) : Shows (zeroPieces frame) frame (List.replicate 4096 0) := by
  have hrow := Shows.row (g := fun _ => le 8 0) (n := 4096 / 8) (w := 8) (fun _ _ => length_le 8 _) frame
  have hzeros : (List.range (4096 / 8)).flatMap (fun _ => le 8 0) = List.replicate 4096 0 := by
    have hlen : ((List.range (4096 / 8)).flatMap fun _ => le 8 0).length = 4096 := by
      rw [List.length_flatMap, List.map_const', List.sum_replicate_nat, List.length_range, length_le]
    refine List.eq_replicate_iff.mpr ⟨hlen, fun b hb => ?_⟩
    obtain ⟨-, -, hb⟩ := List.mem_flatMap.mp hb
    exact List.eq_of_mem_replicate (n := 8) (a := 0) hb
  rwa [hzeros] at hrow

theorem length_header (reqType : BitVec 32) (sector : BitVec 64) : (reqHeaderEncode reqType sector).length = 16 := by
  simp [reqHeaderEncode]

theorem header_shown (k : BlkCall) (dev frame : Nat) :
    Shows (pieces (k.posted dev frame)) (frame + BLK_HDR_OFF) (reqHeaderEncode k.reqType k.sector) := by
  rw [pieces_posted]
  refine .later (.kept (bytes_shown _ _) fun q hq => ?_)
  rw [length_header, Piece.Apart]
  simp only [BLK_HDR_OFF, BLK_DATA_OFF, BLK_STATUS_OFF] at *
  rcases List.mem_append.mp hq with hq | hq
  · have := byte_reach hq
    omega
  · rcases List.mem_append.mp hq with hq | hq
    · rw [List.mem_singleton.mp hq]
      exact .inr (by simp only; omega)
    · have := late_reach hq
      omega

theorem payload_shown (k : BlkCall) (dev frame : Nat) :
    Shows (pieces (k.posted dev frame)) (frame + BLK_DATA_OFF) k.payload := by
  rw [pieces_posted]
  refine .later (.later (.kept (bytes_shown _ _) fun q hq => ?_))
  rw [Piece.Apart]
  simp only [BLK_DATA_OFF, BLK_STATUS_OFF] at *
  rcases List.mem_append.mp hq with hq | hq
  · rw [List.mem_singleton.mp hq]
    exact .inl (by simp only [List.length_singleton]; omega)
  · have := late_reach hq
    omega

/-- The used ring is empty, whatever stood in the frame. -/
theorem used_shown (k : BlkCall) (dev frame : Nat) :
    Shows (pieces (k.posted dev frame)) (frame + BLK_USED_OFF + 2) (le 2 0) := by
  rw [pieces_posted]
  refine .kept ?_ fun q hq => ?_
  · refine ((zeros_shown frame).cut (k := BLK_USED_OFF + 2) fun i c hc => ?_)
    rw [List.getElem?_replicate]
    have hi : i < 2 := (List.getElem?_eq_some_iff.mp hc).1
    rw [if_pos (by simp only [BLK_USED_OFF]; omega)]
    exact congrArg some (List.eq_of_mem_replicate (n := 2) (a := 0) (List.mem_of_getElem? hc)).symm
  · rw [Piece.Apart, length_le]
    have hk : k.payload.length ≤ 512 := by cases k <;> simp [BlkCall.payload]
    simp only [BLK_HDR_OFF, BLK_DATA_OFF, BLK_STATUS_OFF, BLK_USED_OFF] at *
    rcases List.mem_append.mp hq with hq | hq
    · have := byte_reach hq
      omega
    · rcases List.mem_append.mp hq with hq | hq
      · have := byte_reach hq
        omega
      · rcases List.mem_append.mp hq with hq | hq
        · rw [List.mem_singleton.mp hq]
          exact .inr (by simp only; omega)
        · have := late_reach hq
          omega

/-! ## What the device reads -/

/-- The device reads entry `x` off the table. -/
structure Reads (mem : Memory) (entry : Nat) (x : Desc) : Prop where
  addr : wordAt mem entry 8 = x.addr
  len : wordAt mem (entry + 8) 4 = x.len.toNat
  flags : BitVec.ofNat 16 (wordAt mem (entry + 12) 2) = x.flags
  next : wordAt mem (entry + 14) 2 = x.next.toNat

theorem desc_reads {pre post : List (Piece UInt8)} {entry : Nat} {x : Desc} (haddr : x.addr < 2 ^ 64)
    (hpost : ∀ q ∈ post, entry + 16 ≤ q.1) : Reads (laid mem (pre ++ (x.pieces entry ++ post))) entry x := by
  have hshown {off n v : Nat} (hoff : off + n ≤ 16) (h : Shows (x.pieces entry) (entry + off) (le n v)) :
      Shows (pre ++ (x.pieces entry ++ post)) (entry + off) (le n v) := by
    refine .later (.kept h fun q hq => ?_)
    have := hpost q hq
    rw [Piece.Apart, length_le]
    omega
  have haddr' : Shows (x.pieces entry) (entry + 0) (le 8 x.addr) :=
    .pick [] (p := (entry, le 8 x.addr)) (by simp [Piece.Apart])
  have hlen : Shows (x.pieces entry) (entry + 8) (le 4 x.len.toNat) :=
    .pick [_] (p := (entry + 8, le 4 x.len.toNat)) (by simp [Piece.Apart])
  have hflags : Shows (x.pieces entry) (entry + 12) (le 2 x.flags.toNat) :=
    .pick [_, _] (p := (entry + 12, le 2 x.flags.toNat)) (by simp [Piece.Apart])
  have hnext : Shows (x.pieces entry) (entry + 14) (le 2 x.next.toNat) :=
    .pick [_, _, _] (p := (entry + 14, le 2 x.next.toNat)) (by simp)
  refine ⟨wordAt_laid (hshown (by decide) haddr') (by simpa using haddr),
    wordAt_laid (hshown (by decide) hlen) x.len.isLt, ?_, wordAt_laid (hshown (by decide) hnext) x.next.isLt⟩
  rw [wordAt_laid (hshown (by decide) hflags) x.flags.isLt, BitVec.ofNat_toNat, BitVec.setWidth_eq]

theorem table_reads {table n : Nat} {xs : List Desc} {pre post : List (Piece UInt8)}
    (haddr : ∀ x ∈ xs, x.addr < 2 ^ 64) (hpost : ∀ q ∈ post, table + 16 * (n + xs.length) ≤ q.1) {i : Nat} {x : Desc}
    (hx : xs[i]? = some x) :
    Reads (laid mem (pre ++ (tablePieces table n xs ++ post))) (table + 16 * (n + i)) x := by
  induction xs generalizing n i pre with
  | nil => exact absurd hx (by simp)
  | cons y ys ih =>
      rw [tablePieces, List.append_assoc]
      rw [List.length_cons] at hpost
      cases i with
      | zero =>
          obtain rfl := Option.some.inj hx
          refine desc_reads (haddr y List.mem_cons_self) fun q hq => ?_
          rcases List.mem_append.mp hq with hq | hq
          · have := table_reach hq
            omega
          · have := hpost q hq
            omega
      | succ i =>
          have hi : n + (i + 1) = n + 1 + i := by omega
          rw [← List.append_assoc, hi]
          exact ih (fun z hz => haddr z (List.mem_cons_of_mem _ hz)) (fun q hq => (hpost q hq).trans' (by omega)) hx

def Desc.area (x : Desc) : Area := ⟨x.addr, x.len.toNat, x.flags &&& VIRTQ_DESC_F_WRITE != 0⟩

theorem chainAt_next {table n i : Nat} {x : Desc} (h : Reads mem (table + 16 * i) x)
    (hnext : x.flags &&& VIRTQ_DESC_F_NEXT ≠ 0) :
    chainAt mem table (n + 1) i = x.area :: chainAt mem table n x.next.toNat := by
  rw [chainAt, h.addr, h.len, h.flags, h.next, if_neg hnext, Desc.area]

theorem chainAt_last {table n i : Nat} {x : Desc} (h : Reads mem (table + 16 * i) x)
    (hlast : x.flags &&& VIRTQ_DESC_F_NEXT = 0) : chainAt mem table (n + 1) i = [x.area] := by
  rw [chainAt, h.addr, h.len, h.flags, if_pos hlast, Desc.area]

theorem header_area (frame : Nat) : (headerDesc frame).area = ⟨frame + BLK_HDR_OFF, REQ_HEADER_LEN, false⟩ :=
  congrArg₂ (Area.mk _) (by decide : (BitVec.ofNat 32 REQ_HEADER_LEN).toNat = REQ_HEADER_LEN)
    (by decide : (VIRTQ_DESC_F_NEXT &&& VIRTQ_DESC_F_WRITE != 0) = false)

theorem status_area (frame : Nat) : (statusDesc frame).area = ⟨frame + BLK_STATUS_OFF, 1, true⟩ :=
  congrArg (Area.mk _ 1) (by decide : (VIRTQ_DESC_F_WRITE &&& VIRTQ_DESC_F_WRITE != 0) = true)

/-- Header, sector, status. -/
def areas (frame : Nat) (reqType : BitVec 32) : List Area :=
  ⟨frame + BLK_HDR_OFF, REQ_HEADER_LEN, false⟩ ::
    if reqType = T_FLUSH then [⟨frame + BLK_STATUS_OFF, 1, true⟩]
    else [⟨frame + BLK_DATA_OFF, 512, reqType == T_IN⟩, ⟨frame + BLK_STATUS_OFF, 1, true⟩]

theorem descs_addr {reqType : BitVec 32} {x : Desc} (hx : x ∈ descs frame reqType) : x.addr < frame + 4096 := by
  have hx : x = headerDesc frame ∨ x = dataDesc frame reqType ∨ x = statusDesc frame := by
    rw [descs] at hx
    split at hx
    · exact (List.mem_pair.mp hx).imp_right .inr
    · simpa using hx
  rcases hx with rfl | rfl | rfl <;> exact Nat.add_lt_add_left (by decide) frame

theorem avail_start {q : Piece UInt8} (hq : q ∈ availPieces frame) : frame + 0x40 ≤ q.1 := by
  simp only [availPieces, List.mem_cons, List.not_mem_nil, or_false] at hq
  rcases hq with rfl | rfl | rfl <;> simp only [] <;> omega

/-- The chain in the queue is the one of the call. -/
theorem chain_posted (mem : Memory) (k : BlkCall) (dev : Nat) (hframe : frame + 4096 ≤ 2 ^ 64) :
    chainAt (laid mem (pieces (k.posted dev frame))) frame CHAN_Q_SIZE.toNat 0 = areas frame k.reqType := by
  obtain ⟨pre, hpre⟩ : ∃ pre, pieces (k.posted dev frame) =
      pre ++ (tablePieces frame 0 (descs frame k.reqType) ++ availPieces frame) := by
    refine ⟨zeroPieces frame ++ (bytePieces (frame + BLK_HDR_OFF) (reqHeaderEncode k.reqType k.sector) ++
      (bytePieces (frame + BLK_DATA_OFF) k.payload ++ [(frame + BLK_STATUS_OFF, [0xFF])])), ?_⟩
    simp only [pieces_posted, List.append_assoc]
  have haddr : ∀ x ∈ descs frame k.reqType, x.addr < 2 ^ 64 := fun x hx => by
    have := descs_addr hx
    omega
  have hpost : ∀ q ∈ availPieces frame, frame + 16 * (0 + (descs frame k.reqType).length) ≤ q.1 := fun q hq => by
    have := descs_length frame k.reqType
    have := avail_start hq
    omega
  have hreads {i : Nat} {x : Desc} (hx : (descs frame k.reqType)[i]? = some x) :=
    @table_reads mem _ _ _ pre _ haddr hpost i x hx
  rw [hpre, areas]
  have hheader : (headerDesc frame).flags &&& VIRTQ_DESC_F_NEXT ≠ 0 := (by decide : VIRTQ_DESC_F_NEXT &&& 1 ≠ 0)
  have hstatus : (statusDesc frame).flags &&& VIRTQ_DESC_F_NEXT = 0 := (by decide : VIRTQ_DESC_F_WRITE &&& 1 = 0)
  have hnext : (headerDesc frame).next.toNat = 1 := rfl
  by_cases hflush : k.reqType = T_FLUSH
  · have hdescs : descs frame k.reqType = [headerDesc frame, statusDesc frame] := if_pos hflush
    have hfirst := hreads (i := 0) (congrArg (·[0]?) hdescs)
    have hlast := hreads (i := 1) (congrArg (·[1]?) hdescs)
    have hrest := chainAt_last (n := 2) (i := 1) hlast hstatus
    rw [if_pos hflush]
    refine (chainAt_next (n := 3) (i := 0) hfirst hheader).trans ?_
    rw [hnext, hrest, header_area, status_area]
  · have hdescs : descs frame k.reqType = [headerDesc frame, dataDesc frame k.reqType, statusDesc frame] :=
      if_neg hflush
    have hfirst := hreads (i := 0) (congrArg (·[0]?) hdescs)
    have hmiddle := hreads (i := 1) (congrArg (·[1]?) hdescs)
    have hlast := hreads (i := 2) (congrArg (·[2]?) hdescs)
    have hdata : (dataDesc frame k.reqType).flags &&& VIRTQ_DESC_F_NEXT ≠ 0 ∧
        ((dataDesc frame k.reqType).flags &&& VIRTQ_DESC_F_WRITE != 0) = (k.reqType == T_IN) := by
      rw [dataDesc]
      by_cases hread : k.reqType = T_IN
      · simp only [hread]
        decide
      · simp only [if_neg hread, beq_eq_false_iff_ne.mpr hread]
        decide
    have hrest := (chainAt_next (n := 2) (i := 1) hmiddle hdata.1).trans
      (congrArg ((dataDesc frame k.reqType).area :: ·) (chainAt_last (n := 1) (i := 2) hlast hstatus))
    rw [if_neg hflush, ← hdata.2]
    refine (chainAt_next (n := 3) (i := 0) hfirst hheader).trans ?_
    rw [hnext, hrest, header_area, status_area]
    rfl

theorem lastSet_append (ops ops' : List Op) (pa : Nat) :
    lastSet (ops ++ ops') pa = (lastSet ops' pa).or (lastSet ops pa) := by
  rw [lastSet, List.filterMap_append, List.getLast?_append]
  rfl

theorem lastSet_chain (frame pa : Nat) (reqType : BitVec 32) : lastSet (chainOps frame reqType) pa = none := by
  rw [chainOps, lastSet_append]
  by_cases hflush : reqType = T_FLUSH
  · simp only [if_pos hflush]
    rfl
  · simp only [if_neg hflush]
    rfl

/-- The queue's registers are written once. -/
theorem lastSet_posted (k : BlkCall) {off : Nat} {v : BitVec 32}
    (hqueue : lastSet (queueOps dev (frame + BLK_DESC_OFF) (frame + BLK_AVAIL_OFF) (frame + BLK_USED_OFF)) (dev + off) =
      some v)
    (hoff : off ≠ R_QUEUE_READY ∧ off ≠ R_STATUS ∧ off ≠ R_QUEUE_NOTIFY) :
    lastSet (k.posted dev frame) (dev + off) = some v := by
  obtain ⟨hready, hstatus, hnotify⟩ := hoff
  have hkick : lastSet (kickOps dev frame) (dev + off) = none := by
    simp [lastSet, kickOps, Op.sets, hstatus.symm, hnotify.symm]
  have htail : lastSet [.ramW 16 (frame + BLK_AVAIL_OFF) VIRTQ_AVAIL_F_NO_INTERRUPT.toNat,
      .ramW 16 (frame + BLK_AVAIL_OFF + 4) 0, .regW (dev + R_QUEUE_READY) 1, .regR (dev + R_QUEUE_READY)] (dev + off) =
      none := by
    simp [lastSet, Op.sets, hready.symm]
  simp only [BlkCall.posted, setupOps, lastSet_append, hkick, htail, lastSet_chain, hqueue, Option.none_or,
    Option.some_or]

theorem addrAt_posted (k : BlkCall) {low high a : Nat} (ha : a < 2 ^ 64)
    (hlow : lastSet (k.posted dev frame) (dev + low) = some (.ofNat 32 a))
    (hhigh : lastSet (k.posted dev frame) (dev + high) = some (.ofNat 32 (a >>> 32))) :
    addrAt (k.posted dev frame) (dev + low) (dev + high) = a := by
  rw [addrAt, hlow, hhigh, Option.getD_some, Option.getD_some, BitVec.toNat_ofNat, BitVec.toNat_ofNat,
    Nat.shiftRight_eq_div_pow]
  omega

theorem queue_sets (desc avail used : Nat) :
    lastSet (queueOps dev desc avail used) (dev + R_QUEUE_DESC_LOW) = some (.ofNat 32 desc) ∧
    lastSet (queueOps dev desc avail used) (dev + R_QUEUE_DESC_HIGH) = some (.ofNat 32 (desc >>> 32)) ∧
    lastSet (queueOps dev desc avail used) (dev + R_QUEUE_DRIVER_LOW) = some (.ofNat 32 avail) ∧
    lastSet (queueOps dev desc avail used) (dev + R_QUEUE_DRIVER_HIGH) = some (.ofNat 32 (avail >>> 32)) ∧
    lastSet (queueOps dev desc avail used) (dev + R_QUEUE_DEVICE_LOW) = some (.ofNat 32 used) ∧
    lastSet (queueOps dev desc avail used) (dev + R_QUEUE_DEVICE_HIGH) = some (.ofNat 32 (used >>> 32)) := by
  simp [lastSet, queueOps, Op.sets, R_QUEUE_SEL, R_QUEUE_NUM, R_QUEUE_DESC_LOW, R_QUEUE_DESC_HIGH, R_QUEUE_DRIVER_LOW,
    R_QUEUE_DRIVER_HIGH, R_QUEUE_DEVICE_LOW, R_QUEUE_DEVICE_HIGH]

theorem header_read (reqType : BitVec 32) (sector : BitVec 64) (bs : List UInt8) :
    BitVec.ofNat 32 (unle (slice (reqHeaderEncode reqType sector ++ bs) 0 4)) = reqType ∧
      BitVec.ofNat 64 (unle (slice (reqHeaderEncode reqType sector ++ bs) 8 8)) = sector := by
  have htype : slice (reqHeaderEncode reqType sector ++ bs) 0 4 = le 4 reqType.toNat := by
    simp only [reqHeaderEncode, List.append_assoc]
    exact slice_here _ _ (length_le 4 _)
  have hsector : slice (reqHeaderEncode reqType sector ++ bs) 8 8 = le 8 sector.toNat := by
    simp only [reqHeaderEncode, List.append_assoc]
    rw [slice_skip _ _ (by simp), slice_skip _ _ (by simp)]
    simp only [length_le]
    exact slice_here _ _ (length_le 8 _)
  rw [htype, hsector]
  exact ⟨ofNat_unle_le (by decide) reqType, ofNat_unle_le (by decide) sector⟩

/-- The request as it was meant. -/
def BlkCall.meant (k : BlkCall) (frame : Nat) : Asked :=
  ⟨k.reqType, k.sector, k.payload,
    (if k.reqType = T_IN then (List.range 512).map (frame + BLK_DATA_OFF + ·) else []) ++ [frame + BLK_STATUS_OFF]⟩

theorem ofChain_areas (k : BlkCall)
    (hhdr : bytesAt mem (frame + BLK_HDR_OFF) REQ_HEADER_LEN = reqHeaderEncode k.reqType k.sector)
    (hdata : k.payload ≠ [] → bytesAt mem (frame + BLK_DATA_OFF) 512 = k.payload) :
    Asked.ofChain mem (areas frame k.reqType) = k.meant frame := by
  have hout : ((areas frame k.reqType).filter fun x => !x.writable).flatMap (fun x => bytesAt mem x.addr x.len) =
      reqHeaderEncode k.reqType k.sector ++ k.payload := by
    cases k with
    | read sector buf => simpa [areas, BlkCall.reqType, T_IN, T_FLUSH, BlkCall.payload] using hhdr
    | write sector buf =>
        have hdata := hdata fun h => absurd (congrArg List.length h) (by simp [BlkCall.payload])
        rw [← hhdr, ← hdata]
        simp [areas, BlkCall.reqType, T_IN, T_OUT, T_FLUSH]
    | flush => simpa [areas, BlkCall.reqType, BlkCall.payload] using hhdr
  have hroom : ((areas frame k.reqType).filter fun x => x.writable).flatMap
      (fun x => (List.range x.len).map (x.addr + ·)) = (k.meant frame).room := by
    cases k with
    | read sector buf => simp [areas, BlkCall.meant, BlkCall.reqType, T_IN, T_FLUSH]
    | write sector buf => simp [areas, BlkCall.meant, BlkCall.reqType, T_IN, T_OUT, T_FLUSH]
    | flush => simp [areas, BlkCall.meant, BlkCall.reqType, T_IN, T_FLUSH]
  have hlen : (reqHeaderEncode k.reqType k.sector).length = REQ_HEADER_LEN := length_header _ _
  obtain ⟨htype, hsector⟩ := header_read k.reqType k.sector k.payload
  rw [Asked.ofChain, hout, hroom, htype, hsector, List.drop_left' hlen]
  rfl

/-- **The device finds the call's request**, in whatever frame. -/
theorem asked_posted (mem : Memory) (k : BlkCall) (dev : Nat) (hframe : frame + 4096 ≤ 2 ^ 64) :
    asked (laid mem (pieces (k.posted dev frame))) (k.posted dev frame) dev = some (k.meant frame) := by
  obtain ⟨hdl, hdh, hal, hah, -, -⟩ := @queue_sets dev (frame + BLK_DESC_OFF) (frame + BLK_AVAIL_OFF)
    (frame + BLK_USED_OFF)
  have havail : addrAt (k.posted dev frame) (dev + R_QUEUE_DRIVER_LOW) (dev + R_QUEUE_DRIVER_HIGH) =
      frame + BLK_AVAIL_OFF :=
    addrAt_posted k (by simp only [BLK_AVAIL_OFF]; omega) (lastSet_posted k hal (by decide))
      (lastSet_posted k hah (by decide))
  have hdesc : addrAt (k.posted dev frame) (dev + R_QUEUE_DESC_LOW) (dev + R_QUEUE_DESC_HIGH) = frame + BLK_DESC_OFF :=
    addrAt_posted k (by simp only [BLK_DESC_OFF]; omega) (lastSet_posted k hdl (by decide))
      (lastSet_posted k hdh (by decide))
  have hidx : wordAt (laid mem (pieces (k.posted dev frame))) (frame + BLK_AVAIL_OFF + 2) 2 = 1 := by
    rw [pieces_posted]
    exact wordAt_laid (.later (.later (.later (.later (.later (.pick [_, _] (p := (frame + 0x42, le 2 1))
      (by simp))))))) (by decide)
  have hhead : wordAt (laid mem (pieces (k.posted dev frame))) (frame + BLK_AVAIL_OFF + 4) 2 = 0 := by
    rw [pieces_posted]
    exact wordAt_laid (.later (.later (.later (.later (.later (.pick [_] (p := (frame + 0x44, le 2 0))
      (by simp [Piece.Apart]))))))) (by decide)
  rw [asked, havail, hdesc, hidx, hhead, if_neg (by decide)]
  refine congrArg some ((congrArg _ (chain_posted mem k dev hframe)).trans (ofChain_areas k ?_ fun hne => ?_))
  · exact bytesAt_laid (header_shown k dev frame) (length_header _ _)
  · refine bytesAt_laid (payload_shown k dev frame) ?_
    cases k with
    | read sector buf => exact absurd rfl hne
    | write sector buf => exact Vector.length_toList
    | flush => exact absurd rfl hne

/-! ## A device over a disk -/

abbrev Sector := Vector UInt8 512

abbrev Disk := Volatile.Disk Sector

def sectorOf (bs : List UInt8) : Sector := Vector.ofFn fun i => bs.getD i 0

/-- What is left open about one call: memory before it, the reads of the used index that pass before
the device has answered, the status it reports, what it leaves of a read that failed, and whether a
write that failed has reached the disk. -/
structure Service where
  mem : Memory
  delay : Nat
  st : UInt8
  junk : Sector
  lands : Bool

namespace Service

def data (v : Service) (disk : Disk) (q : Asked) : List UInt8 :=
  if q.reqType = T_IN then (if v.st = S_OK then disk q.sector.toNat else v.junk).toList else []

/-- The sector into the room for it, the status into the last byte, one entry in the used ring. -/
def wrote (v : Service) (disk : Disk) (q : Asked) (used : Nat) : List (Piece UInt8) :=
  ((q.room.dropLast.zip (v.data disk q)).map fun x => (x.1, [x.2])) ++
    [(q.room.getLastD 0, [v.st]), (used + 2, le 2 1)]

def disk (v : Service) (disk : Disk) (q : Asked) : Disk :=
  if q.reqType = T_OUT ∧ (v.st = S_OK ∨ v.lands = true) then Function.update disk q.sector.toNat (sectorOf q.payload)
  else disk

def before (v : Service) (ops : List Op) : Memory := laid v.mem (pieces ops)

/-- Memory once the request is answered. -/
def after (v : Service) (disk : Disk) (dev : Nat) (ops : List Op) : Memory :=
  match asked (v.before ops) ops dev with
  | none => v.before ops
  | some q => laid (v.before ops) (v.wrote disk q (addrAt ops (dev + R_QUEUE_DEVICE_LOW) (dev + R_QUEUE_DEVICE_HIGH)))

end Service

/-- The accesses up to the first notification. -/
def kicked (dev : Nat) : List Op → Option (List Op)
  | [] => none
  | op :: ops => if op = .regW (dev + R_QUEUE_NOTIFY) 0 then some [op] else (kicked dev ops).map (op :: ·)

/-- The device shows the driver what it has read off the queue and done: nothing, while it is not
notified; then memory as it was, and after `delay` reads memory with its answer. -/
def Serves (v : Service) (dev frame : Nat) (disk : Disk) (d : BlkDevice) (log : List Op) (disk' : Disk) : Prop :=
  match kicked dev log with
  | none => disk' = disk
  | some ops =>
      (∀ spin, d.usedIdx spin =
        .ofNat 16 (wordAt (if spin < v.delay then v.before ops else v.after disk dev ops)
          (frame + BLK_USED_OFF + 2) 2)) ∧
      d.st = v.after disk dev ops (frame + BLK_STATUS_OFF) ∧
      d.data.toList = bytesAt (v.after disk dev ops) (frame + BLK_DATA_OFF) 512 ∧
      disk' = ((asked (v.before ops) ops dev).map (v.disk disk)).getD disk

/-- A call and its answer over such a device; frames lie below the end of memory. -/
def Turn (slot : BitVec 32) (disk : Disk) (x : BlkCall × Bool × Sector) (disk' : Disk) : Prop :=
  ∃ (host : Host) (d : BlkDevice) (log : List Op) (v : Service),
    (∀ frame, host.frameAlloc = some frame → frame + 4096 ≤ 2 ^ 64) ∧
    x.1.run host d slot = some (x.2.1, ⟨log, x.2.2⟩) ∧
    Serves v (slotAt VIRTIO_WINDOW_VA slot) (host.frameAlloc.getD 0) disk d log disk'

/-- The same over sectors that are read and written directly: an answer, or a failure that leaves
the buffer alone and may have written. -/
inductive Direct : Disk → BlkCall × Bool × Sector → Disk → Prop
  | read (disk : Disk) (n : BitVec 64) (buf : Sector) : Direct disk (.read n buf, true, disk n.toNat) disk
  | write (disk : Disk) (n : BitVec 64) (buf : Sector) :
      Direct disk (.write n buf, true, buf) (Function.update disk n.toNat buf)
  | flush (disk : Disk) : Direct disk (.flush, true, Vector.replicate 512 0) disk
  | failed (disk : Disk) (k : BlkCall) : Direct disk (k, false, k.buffer) disk
  | landed (disk : Disk) (n : BitVec 64) (buf : Sector) :
      Direct disk (.write n buf, false, buf) (Function.update disk n.toNat buf)

/-! ## The refinement -/

theorem stage_silent (k : BlkCall) (pa : Nat) : ∀ op ∈ stageOps frame k.reqType k.sector k.data, op.sets pa = none := by
  have hrow {n width : Nat} {at₀ : Nat → Nat} {g : Nat → Nat} :
      ∀ op ∈ (List.range n).flatMap fun i => [Op.ramW width (at₀ i) (g i)], op.sets pa = none := fun op hop => by
    obtain ⟨i, -, hop⟩ := List.mem_flatMap.mp hop
    rw [List.mem_singleton.mp hop]
    rfl
  have hdata : ∀ op ∈ dataOps frame k.reqType k.data, op.sets pa = none := by
    cases k with
    | read sector buf => exact fun _ h => absurd h List.not_mem_nil
    | write sector buf =>
        simp only [BlkCall.reqType, BlkCall.data, dataOps, if_true]
        exact hrow
    | flush => exact fun _ h => absurd h List.not_mem_nil
  rw [stageOps, List.forall_mem_append, List.forall_mem_append, List.forall_mem_append, List.forall_mem_singleton]
  exact ⟨⟨⟨hrow, hrow⟩, hdata⟩, rfl⟩

theorem chain_silent (reqType : BitVec 32) (pa : Nat) : ∀ op ∈ chainOps frame reqType, op.sets pa = none := by
  have hdesc (desc addr : Nat) (len : BitVec 32) (flags next : BitVec 16) :
      ∀ op ∈ descOps desc addr len flags next, op.sets pa = none := by simp [descOps, Op.sets]
  rw [chainOps, List.forall_mem_append]
  refine ⟨hdesc _ _ _ _ _, ?_⟩
  split
  · exact hdesc _ _ _ _ _
  · exact List.forall_mem_append.mpr ⟨hdesc _ _ _ _ _, hdesc _ _ _ _ _⟩

/-- Nothing before the kick notifies the device. -/
theorem setup_silent (k : BlkCall) :
    ∀ op ∈ setupOps dev frame k.reqType k.sector k.data, op.sets (dev + R_QUEUE_NOTIFY) = none := by
  simp only [setupOps, List.forall_mem_append]
  refine ⟨stage_silent k _, ?_, ?_, chain_silent k.reqType _, ?_⟩
  · simp [handshakeOps, Op.sets, R_QUEUE_NOTIFY, R_STATUS, R_DEVICE_FEATURES_SEL, R_DRIVER_FEATURES,
      R_DRIVER_FEATURES_SEL]
  · simp [queueOps, Op.sets, R_QUEUE_NOTIFY, R_QUEUE_SEL, R_QUEUE_NUM, R_QUEUE_DESC_LOW, R_QUEUE_DESC_HIGH,
      R_QUEUE_DRIVER_LOW, R_QUEUE_DRIVER_HIGH, R_QUEUE_DEVICE_LOW, R_QUEUE_DEVICE_HIGH]
  · simp [Op.sets, R_QUEUE_NOTIFY, R_QUEUE_READY]

theorem kicked_silent {ops : List Op} (h : ∀ op ∈ ops, op.sets (dev + R_QUEUE_NOTIFY) = none) :
    kicked dev ops = none := by
  induction ops with
  | nil => rfl
  | cons op ops ih =>
      rw [List.forall_mem_cons] at h
      rw [kicked, if_neg, ih h.2]
      · rfl
      · rintro rfl
        exact absurd h.1 (by simp [Op.sets])

theorem kicked_append {ops : List Op} (h : ∀ op ∈ ops, op.sets (dev + R_QUEUE_NOTIFY) = none) (post : List Op) :
    kicked dev (ops ++ .regW (dev + R_QUEUE_NOTIFY) 0 :: post) = some (ops ++ [.regW (dev + R_QUEUE_NOTIFY) 0]) := by
  induction ops with
  | nil => rw [List.nil_append, kicked, if_pos rfl, List.nil_append]
  | cons op ops ih =>
      rw [List.forall_mem_cons] at h
      rw [List.cons_append, kicked, if_neg, ih h.2]
      · rfl
      · rintro rfl
        exact absurd h.1 (by simp [Op.sets])

theorem kicked_posted (k : BlkCall) {ops : List Op} (h : k.posted dev frame <+: ops) (post : List Op) :
    kicked dev (.alloc frame :: ops ++ post) = some (.alloc frame :: k.posted dev frame) := by
  obtain ⟨rest, rfl⟩ := h
  have hkick : ∀ op ∈ (kickOps dev frame).dropLast, op.sets (dev + R_QUEUE_NOTIFY) = none := by
    simp [kickOps, Op.sets, R_QUEUE_NOTIFY, R_STATUS]
  have hposted : k.posted dev frame = setupOps dev frame k.reqType k.sector k.data ++ (kickOps dev frame).dropLast ++
      [.regW (dev + R_QUEUE_NOTIFY) 0] := by
    rw [BlkCall.posted, List.append_assoc]
    rfl
  have hquiet : ∀ op ∈ .alloc frame :: (setupOps dev frame k.reqType k.sector k.data ++ (kickOps dev frame).dropLast),
      op.sets (dev + R_QUEUE_NOTIFY) = none :=
    List.forall_mem_cons.mpr ⟨rfl, List.forall_mem_append.mpr ⟨setup_silent k, hkick⟩⟩
  rw [hposted]
  have := kicked_append hquiet (rest ++ post)
  simpa only [List.append_assoc, List.cons_append, List.nil_append] using this

theorem le_one (b : UInt8) : le 1 b.toNat = [b] := by simp [le]

theorem laid_of_shows {ps : List (Piece UInt8)} {a : Nat} {b : UInt8} (h : Shows ps a [b]) : laid mem ps a = b := by
  rw [laid, ← Nat.add_zero a, h 0 b rfl, Option.getD_some]

theorem zip_pieces (at₀ : Nat) (bs : List UInt8) :
    (((List.range bs.length).map (at₀ + ·)).zip bs).map (fun x => (x.1, [x.2])) = bytePieces at₀ bs := by
  refine List.ext_getElem (by simp [bytePieces]) fun i _ hi => ?_
  have hi : i < bs.length := by simpa [bytePieces] using hi
  simp [bytePieces, le_one, List.getElem?_eq_getElem hi]

section Served

variable {v : Service} {disk : Disk} {d : BlkDevice}

theorem wrote_read (hread : k.reqType = T_IN) (used : Nat) : v.wrote disk (k.meant frame) used =
    bytePieces (frame + BLK_DATA_OFF) (v.data disk (k.meant frame)) ++
      [(frame + BLK_STATUS_OFF, [v.st]), (used + 2, le 2 1)] := by
  have hlen : (v.data disk (k.meant frame)).length = 512 := by
    rw [Service.data, if_pos (show (k.meant frame).reqType = T_IN from hread), Vector.length_toList]
  have hroom : (k.meant frame).room = (List.range 512).map (frame + BLK_DATA_OFF + ·) ++ [frame + BLK_STATUS_OFF] := by
    rw [BlkCall.meant, if_pos hread]
  rw [Service.wrote, hroom, List.dropLast_concat, ← zip_pieces, hlen, List.getLastD_concat]

theorem wrote_other (hread : k.reqType ≠ T_IN) (used : Nat) : v.wrote disk (k.meant frame) used =
    [(frame + BLK_STATUS_OFF, [v.st]), (used + 2, le 2 1)] := by
  have hroom : (k.meant frame).room = [frame + BLK_STATUS_OFF] := by
    rw [BlkCall.meant, if_neg hread, List.nil_append]
  rw [Service.wrote, hroom]
  rfl

theorem before_alloc (v : Service) (ops : List Op) : v.before (.alloc frame :: ops) = v.before ops := rfl

theorem asked_alloc (mem : Memory) (ops : List Op) (dev : Nat) :
    asked mem (.alloc frame :: ops) dev = asked mem ops dev := rfl

theorem addrAt_alloc (ops : List Op) (low high : Nat) :
    addrAt (.alloc frame :: ops) low high = addrAt ops low high := rfl

theorem asked_kicked (hframe : frame + 4096 ≤ 2 ^ 64) :
    asked (v.before (.alloc frame :: k.posted dev frame)) (.alloc frame :: k.posted dev frame) dev =
      some (k.meant frame) := by
  rw [before_alloc, asked_alloc, Service.before, asked_posted v.mem k dev hframe]

theorem after_kicked (hframe : frame + 4096 ≤ 2 ^ 64) : v.after disk dev (.alloc frame :: k.posted dev frame) =
    laid (v.before (.alloc frame :: k.posted dev frame)) (v.wrote disk (k.meant frame) (frame + BLK_USED_OFF)) := by
  obtain ⟨-, -, -, -, hul, huh⟩ := @queue_sets dev (frame + BLK_DESC_OFF) (frame + BLK_AVAIL_OFF)
    (frame + BLK_USED_OFF)
  have hused : addrAt (k.posted dev frame) (dev + R_QUEUE_DEVICE_LOW) (dev + R_QUEUE_DEVICE_HIGH) =
      frame + BLK_USED_OFF :=
    addrAt_posted k (by simp only [BLK_USED_OFF]; omega) (lastSet_posted k hul (by decide))
      (lastSet_posted k huh (by decide))
  rw [Service.after, asked_kicked hframe]
  simp only [addrAt_alloc, hused]

theorem status_after (hframe : frame + 4096 ≤ 2 ^ 64) :
    v.after disk dev (.alloc frame :: k.posted dev frame) (frame + BLK_STATUS_OFF) = v.st := by
  have hpick (ps : List (Piece UInt8)) : Shows (ps ++ [(frame + BLK_STATUS_OFF, [v.st]),
      (frame + BLK_USED_OFF + 2, le 2 1)]) (frame + BLK_STATUS_OFF) [v.st] :=
    .pick ps (p := (frame + BLK_STATUS_OFF, [v.st])) (by simp [Piece.Apart, BLK_USED_OFF, BLK_STATUS_OFF])
  rw [after_kicked hframe]
  by_cases hread : k.reqType = T_IN
  · exact laid_of_shows (by rw [wrote_read hread]; exact hpick _)
  · exact laid_of_shows (by rw [wrote_other hread]; exact hpick [])

theorem data_after (hframe : frame + 4096 ≤ 2 ^ 64) (hread : k.reqType = T_IN) (hst : v.st = S_OK) :
    bytesAt (v.after disk dev (.alloc frame :: k.posted dev frame)) (frame + BLK_DATA_OFF) 512 =
      (disk k.sector.toNat).toList := by
  have hdata : v.data disk (k.meant frame) = (disk k.sector.toNat).toList := by
    rw [Service.data, if_pos (show (k.meant frame).reqType = T_IN from hread), if_pos hst]
    rfl
  rw [after_kicked hframe, wrote_read hread, hdata]
  refine bytesAt_laid (.kept (bytes_shown _ _) ?_) Vector.length_toList
  simp [Piece.Apart, BLK_USED_OFF, BLK_STATUS_OFF, BLK_DATA_OFF]

end Served

theorem mapWindow_eq {host : Host} {base : Nat} (h : mapWindow host = some base) : base = VIRTIO_WINDOW_VA := by
  rw [mapWindow] at h
  split at h
  · exact (Option.some.inj h).symm
  · cases h

theorem sectorOf_toList (buf : Sector) : sectorOf buf.toList = buf :=
  Vector.ext fun i hi => by rw [sectorOf, Vector.getElem_ofFn, data_getD buf hi]

/-- A request that was handed over has its effect, or none. -/
theorem disk_meant (v : Service) (disk : Disk) (k : BlkCall) (frame : Nat) :
    v.disk disk (k.meant frame) = match k with
      | .write n buf => if v.st = S_OK ∨ v.lands = true then Function.update disk n.toNat buf else disk
      | _ => disk := by
  cases k with
  | read n buf => exact if_neg fun h => absurd h.1 (by decide : T_IN ≠ T_OUT)
  | flush => exact if_neg fun h => absurd h.1 (by decide : T_FLUSH ≠ T_OUT)
  | write n buf =>
      rw [Service.disk]
      by_cases heffect : v.st = S_OK ∨ v.lands = true
      · rw [if_pos ⟨rfl, heffect⟩]
        simp only [if_pos heffect]
        exact congrArg (Function.update disk n.toNat) (sectorOf_toList buf)
      · rw [if_neg fun h => heffect h.2]
        simp only [if_neg heffect]

theorem direct_failed (v : Service) (disk : Disk) (k : BlkCall) (frame : Nat) :
    Direct disk (k, false, k.buffer) (v.disk disk (k.meant frame)) := by
  rw [disk_meant]
  cases k with
  | read n buf => exact .failed disk _
  | flush => exact .failed disk _
  | write n buf =>
      by_cases heffect : v.st = S_OK ∨ v.lands = true
      · simp only [if_pos heffect]
        exact .landed disk n buf
      · simp only [if_neg heffect]
        exact .failed disk _

theorem direct_served (v : Service) (disk : Disk) (k : BlkCall) (frame : Nat) (hst : v.st = S_OK) :
    Direct disk (k, true, if k.reqType = T_IN then disk k.sector.toNat else k.buffer)
      (v.disk disk (k.meant frame)) := by
  rw [disk_meant]
  cases k with
  | read n buf => exact .read disk n buf
  | flush => exact .flush disk
  | write n buf =>
      simp only [hst, true_or, if_true]
      exact .write disk n buf

theorem serves_posted {v : Service} {disk disk' : Disk} {d : BlkDevice} {ops post : List Op}
    (hframe : frame + 4096 ≤ 2 ^ 64) (hops : k.posted dev frame <+: ops)
    (h : Serves v dev frame disk d (.alloc frame :: ops ++ post) disk') :
    d.st = v.st ∧ (k.reqType = T_IN → v.st = S_OK → d.data = disk k.sector.toNat) ∧
      disk' = v.disk disk (k.meant frame) := by
  rw [Serves, kicked_posted k hops] at h
  obtain ⟨-, hst, hdata, hdisk⟩ := h
  rw [asked_kicked hframe] at hdisk
  refine ⟨hst.trans (status_after hframe), fun hread hok => ?_, hdisk⟩
  exact Vector.toList_inj.mp (hdata.trans (data_after hframe hread hok))

theorem serves_silent {v : Service} {disk disk' : Disk} {d : BlkDevice} {ops : List Op} {st : BitVec 32}
    (hops : ops <+: setupOps dev frame k.reqType k.sector k.data)
    (h : Serves v dev frame disk d (.alloc frame :: ops ++ [.regW (dev + R_STATUS) st, .free frame]) disk') :
    disk' = disk := by
  have hsilent : ∀ op ∈ .alloc frame :: ops ++ [.regW (dev + R_STATUS) st, .free frame],
      op.sets (dev + R_QUEUE_NOTIFY) = none := by
    refine List.forall_mem_append.mpr
      ⟨List.forall_mem_cons.mpr ⟨rfl, fun op hop => setup_silent k op (hops.subset hop)⟩, ?_⟩
    simp [Op.sets, R_STATUS, R_QUEUE_NOTIFY]
  rw [Serves, kicked_silent hsilent] at h
  exact h

/-- The answer of a call that succeeded. -/
theorem done_out {v : Service} {disk : Disk} {d : BlkDevice} (hok : v.st = S_OK) (hst : d.st = v.st)
    (hdata : k.reqType = T_IN → v.st = S_OK → d.data = disk k.sector.toNat) : (statusDecode d.st == S_OK) = true ∧
      (if statusDecode d.st == S_OK && k.reqType == T_IN && k.data.isSome then d.data else k.buffer) =
        if k.reqType = T_IN then disk k.sector.toNat else k.buffer := by
  have hdone : (statusDecode d.st == S_OK) = true := beq_iff_eq.mpr ((statusDecode_ok d.st).mpr (hst.trans hok))
  refine ⟨hdone, ?_⟩
  by_cases hread : k.reqType = T_IN
  · simp [hdone, hread, k.data_of_read hread, hdata hread hok]
  · simp [hread]

/-- One call over the device is one on the disk. -/
theorem turn_direct {slot : BitVec 32} {disk disk' : Disk} {x : BlkCall × Bool × Sector} (h : Turn slot disk x disk') :
    Direct disk x disk' := by
  obtain ⟨k, ok, buf⟩ := x
  obtain ⟨host, d, log, v, hfits, hrun, hserves⟩ := h
  by_cases hbegins : mapWindow host = none ∨ host.frameAlloc = none
  · rw [blkRequest_refused d slot k hbegins] at hrun
    cases hrun
    obtain rfl : disk' = disk := hserves
    exact .failed disk' k
  · obtain ⟨hwindow, hframe⟩ := not_or.mp hbegins
    obtain ⟨base, hwindow⟩ := Option.ne_none_iff_exists'.mp hwindow
    obtain ⟨frame, hframe⟩ := Option.ne_none_iff_exists'.mp hframe
    obtain rfl := mapWindow_eq hwindow
    have hfits := hfits frame hframe
    rw [hframe, Option.getD_some] at hserves
    obtain ⟨ops, -, ⟨hfails, hends⟩ | ⟨⟨-, -, hposted⟩, hends⟩⟩ := blkRequest_cases d slot k hwindow hframe
    · cases hrun.symm.trans hends
      rcases hfails with ⟨-, hprefix⟩ | ⟨-, -, hposted⟩
      · obtain rfl := serves_silent hprefix hserves
        exact .failed disk' k
      · rw [(serves_posted hfits hposted hserves).2.2]
        exact direct_failed v disk k frame
    · have heq := Option.some.inj (hends.symm.trans hrun)
      obtain rfl : _ = log := congrArg (fun r => r.2.log) heq
      obtain ⟨hst, hdata, rfl⟩ := serves_posted hfits hposted hserves
      obtain rfl : _ = ok := congrArg (fun r => r.1) heq
      obtain rfl : _ = buf := congrArg (fun r => r.2.resp) heq
      by_cases hok : v.st = S_OK
      · obtain ⟨hdone, hbuf⟩ := done_out hok hst hdata
        rw [hbuf, hdone]
        exact direct_served v disk k frame hok
      · have hnot : (statusDecode d.st == S_OK) = false :=
          beq_eq_false_iff_ne.mpr fun h => hok (hst ▸ (statusDecode_ok _).mp h)
        rw [hnot, Bool.false_and, Bool.false_and]
        exact direct_failed v disk k frame

/-- The clean slate: before the device answers the used ring is empty, and then it has one entry. -/
theorem used_idx (v : Service) (disk : Disk) (k : BlkCall) (dev : Nat) (hframe : frame + 4096 ≤ 2 ^ 64) :
    wordAt (v.before (.alloc frame :: k.posted dev frame)) (frame + BLK_USED_OFF + 2) 2 = 0 ∧
      wordAt (v.after disk dev (.alloc frame :: k.posted dev frame)) (frame + BLK_USED_OFF + 2) 2 = 1 := by
  constructor
  · rw [before_alloc]
    exact wordAt_laid (used_shown k dev frame) (by decide)
  · have hlast (ps : List (Piece UInt8)) : Shows (ps ++ [(frame + BLK_STATUS_OFF, [v.st]),
        (frame + BLK_USED_OFF + 2, le 2 1)]) (frame + BLK_USED_OFF + 2) (le 2 1) :=
      .later (.pick [_] (p := (frame + BLK_USED_OFF + 2, le 2 1)) (by simp))
    rw [after_kicked hframe]
    by_cases hread : k.reqType = T_IN
    · exact wordAt_laid (by rw [wrote_read hread]; exact hlast _) (by decide)
    · exact wordAt_laid (by rw [wrote_other hread]; exact hlast []) (by decide)

/-- The device that takes part. -/
def Service.device (v : Service) (disk : Disk) (dev frame : Nat) (ops : List Op) : BlkDevice where
  features := VIRTIO_F_VERSION_1_HI
  status := S_FEATURES_OK
  numMax := CHAN_Q_SIZE
  ready := 1
  usedIdx spin :=
    .ofNat 16 (wordAt (if spin < v.delay then v.before ops else v.after disk dev ops) (frame + BLK_USED_OFF + 2) 2)
  st := v.after disk dev ops (frame + BLK_STATUS_OFF)
  data := sectorOf (bytesAt (v.after disk dev ops) (frame + BLK_DATA_OFF) 512)

theorem Service.device_opens (v : Service) (disk : Disk) (dev frame : Nat) (ops : List Op) :
    BlkOpens (v.device disk dev frame ops) where
  features := (by decide : VIRTIO_F_VERSION_1_HI &&& VIRTIO_F_VERSION_1_HI ≠ 0)
  status := (by decide : S_FEATURES_OK &&& S_FEATURES_OK ≠ 0)
  numMax := (by decide : CHAN_Q_SIZE ≠ 0)
  ready := rfl

theorem Service.device_answers {v : Service} {disk : Disk} (hframe : frame + 4096 ≤ 2 ^ 64)
    (hdelay : v.delay < POLL_CAP) :
    Answers (v.device disk dev frame (.alloc frame :: k.posted dev frame)).usedIdx 0 := by
  refine ⟨v.delay, hdelay, ?_⟩
  rw [Service.device]
  simp only [Nat.lt_irrefl, if_false, (used_idx v disk k dev hframe).2]
  decide

theorem sectorOf_data {bs : List UInt8} (hbs : bs.length = 512) : (sectorOf bs).toList = bs := by
  refine List.ext_getElem (by simp [hbs]) fun i _ hi => ?_
  simp [sectorOf, List.getElem?_eq_getElem hi]

theorem Service.device_serves (v : Service) (disk : Disk) (frame : Nat) {log ops : List Op}
    (h : kicked dev log = some ops) :
    Serves v dev frame disk (v.device disk dev frame ops) log
      (((asked (v.before ops) ops dev).map (v.disk disk)).getD disk) := by
  rw [Serves, h]
  exact ⟨fun _ => rfl, rfl, sectorOf_data (by simp [bytesAt]), rfl⟩

/-- A device that takes part and answers in time with `S_OK` makes the call succeed. -/
theorem turn_served (slot : BitVec 32) (disk : Disk) (k : BlkCall) (v : Service) {host : Host}
    (hwindow : mapWindow host = some VIRTIO_WINDOW_VA) (hframe : host.frameAlloc = some frame)
    (hfits : frame + 4096 ≤ 2 ^ 64) (hdelay : v.delay < POLL_CAP) (hst : v.st = S_OK) :
    Turn slot disk (k, true, if k.reqType = T_IN then disk k.sector.toNat else k.buffer)
      (v.disk disk (k.meant frame)) := by
  obtain ⟨d, hd⟩ : ∃ d, d = v.device disk (slotAt VIRTIO_WINDOW_VA slot) frame
    (.alloc frame :: k.posted (slotAt VIRTIO_WINDOW_VA slot) frame) := ⟨_, rfl⟩
  have hopens : BlkOpens d := hd ▸ v.device_opens _ _ _ _
  have hanswers : Answers d.usedIdx 0 := hd ▸ Service.device_answers hfits hdelay
  obtain ⟨ops, -, ⟨hfails, -⟩ | ⟨⟨-, -, hposted⟩, hrun⟩⟩ := blkRequest_cases d slot k hwindow hframe
  · exact absurd hfails fun h => h.elim (fun h => h.1 hopens) fun h => h.2.1 hanswers
  · have hserves : Serves v (slotAt VIRTIO_WINDOW_VA slot) frame disk d
        (.alloc frame :: ops ++ [.regW (slotAt VIRTIO_WINDOW_VA slot + R_STATUS) 0, .free frame])
        (v.disk disk (k.meant frame)) := by
      have hdevice := v.device_serves disk frame (kicked_posted k hposted
        [.regW (slotAt VIRTIO_WINDOW_VA slot + R_STATUS) 0, .free frame])
      rwa [← hd, asked_kicked hfits, Option.map_some, Option.getD_some] at hdevice
    obtain ⟨hst', hdata, -⟩ := serves_posted hfits hposted hserves
    obtain ⟨hdone, hbuf⟩ := done_out hst hst' hdata
    rw [hbuf, hdone] at hrun
    refine ⟨host, d, _, v, fun f hf => ?_, hrun, by rw [hframe]; exact hserves⟩
    rwa [← Option.some.inj (hframe.symm.trans hf)]

/-- **Calls over a device that serves what it finds in its queue answer like a disk.** -/
theorem blk_refines {slot : BitVec 32} {disk disk' : Disk} {xs : List (BlkCall × Bool × Sector)}
    (h : Runs (Turn slot) disk xs disk') : Runs Direct disk xs disk' := h.imp turn_direct

/-- A device that answers after three looks. -/
def promptService : Service := ⟨fun _ => 0xEE, 3, S_OK, Vector.replicate 512 0, false⟩

def ones : Sector := Vector.replicate 512 1

/-- A write, and a read of the same sector. -/
theorem blk_refines_writeRead : Runs Direct (fun _ => Vector.replicate 512 0)
    [(.write 7 ones, true, ones), (.read 7 (Vector.replicate 512 0), true, ones)]
    (Function.update (fun _ => Vector.replicate 512 0) 7 ones) := by
  have hwindow : mapWindow readyHost = some VIRTIO_WINDOW_VA := rfl
  have hserved (disk : Disk) (k : BlkCall) := turn_served 0 disk k promptService hwindow rfl
    (by decide : 0x100000 + 4096 ≤ 2 ^ 64) (by decide : 3 < POLL_CAP) rfl
  have hwrite := hserved (fun _ => Vector.replicate 512 0) (.write 7 ones)
  have hread := hserved (Function.update (fun _ => Vector.replicate 512 0) 7 ones) (.read 7 (Vector.replicate 512 0))
  rw [disk_meant] at hwrite hread
  exact blk_refines (.cons hwrite (.cons hread (.nil _)))

/-- What is written is read, until the sector is written again. -/
theorem blk_reads_back {slot : BitVec 32} {disk disk' : Disk} {pre mid : List (BlkCall × Bool × Sector)} {n : BitVec 64}
    {buf into out got : Sector}
    (h : Runs (Turn slot) disk (pre ++ ((.write n buf, true, out) :: (mid ++ [(.read n into, true, got)]))) disk')
    (hmid : ∀ x ∈ mid, ∀ other, x.1 ≠ .write n other) : got = buf := by
  obtain ⟨disk₁, -, hrun⟩ := (blk_refines h).split
  cases hrun with
  | cons hwrite hrest =>
      obtain ⟨disk₂, hquiet, hread⟩ := hrest.split
      have hkept : disk₂ n.toNat = buf := by
        refine hquiet.inv (P := fun disk => disk n.toNat = buf) (fun {s a t} hstep hno hs => ?_) hmid ?_
        · have hother {m : BitVec 64} {b : Sector} (hm : a.1 = .write m b) : n.toNat ≠ m.toNat := fun heq =>
            hno b (by rw [hm, BitVec.eq_of_toNat_eq heq])
          cases hstep with
          | read | flush | failed => exact hs
          | write m b | landed m b =>
              show Function.update s m.toNat b n.toNat = buf
              rwa [Function.update_of_ne (hother rfl)]
        · cases hwrite
          exact Function.update_self ..
      cases hread with
      | cons hone _ =>
          cases hone
          exact hkept

end Yuva.Hal
