/-
# `Yuva.Vmm.Stream` — the receive stream

What the peer puts out reaches the guest through the chains posted on the receive queue.
The bytes leave the peer's buffer before the chain is known to be sound:

    take bytes --write--> next descriptor --...--> used entry --used.idx--> shown to the guest
        |                       |                      |
        lost when the chain breaks after it, or the entry cannot be written

What the guest was shown is read off memory: a turn that shows an entry has filled the buffers
of a posted chain in order (`Fills`), and has laid over that the entry, with the head and the
length, and the index that counts it (`Shown`).

**Proved here.**  The bytes of the shown entries, followed by those still pending, are all the
bytes the peer put out, in every state of a run, exactly when no turn of `drain_rx` meets a
chain that breaks after bytes were taken for it, or ends where no entry can account for them
(`rx_stream_intact_iff`).
-/
import Yuva.Vmm.Virtio
import Yuva.Lib.Run
import Mathlib.Data.List.TakeDrop

namespace Yuva.Vmm

open Yuva.Bytes Yuva.Overlay Yuva.Run VmMemory

variable {V : VmMemory} {P : HostPeer}

/-! ## What the guest is shown -/

/-- The pieces put into the writable buffers of the chain at a descriptor, each at the address of
its buffer.  A buffer is full before the next is begun, and a descriptor is read from the memory
that the pieces before it left. -/
inductive Fills (q : QueueState) :
    V.GuestMemoryMmap → BitVec 16 → List (Piece UInt8) → V.GuestMemoryMmap → Prop
  | stop {m : V.GuestMemoryMmap} {idx : BitVec 16} {d : Descriptor} :
      readDescriptor m q idx = some d → d.writable = false → Fills q m idx [] m
  | last {m m' : V.GuestMemoryMmap} {idx : BitVec 16} {d : Descriptor} {bs : List UInt8} :
      readDescriptor m q idx = some d → d.writable = true → bs.length ≤ d.len.toNat →
      Laid m [(d.addr.toNat, bs)] m' → Fills q m idx [(d.addr.toNat, bs)] m'
  | skip {m m' : V.GuestMemoryMmap} {idx : BitVec 16} {d : Descriptor} {ps : List (Piece UInt8)} :
      readDescriptor m q idx = some d → d.writable = false → d.hasNext = true →
      Fills q m d.next ps m' → Fills q m idx ps m'
  | full {m m₁ m' : V.GuestMemoryMmap} {idx : BitVec 16} {d : Descriptor} {bs : List UInt8}
      {ps : List (Piece UInt8)} : readDescriptor m q idx = some d → d.writable = true →
      bs.length = d.len.toNat → d.hasNext = true → Laid m [(d.addr.toNat, bs)] m₁ →
      Fills q m₁ d.next ps m' → Fills q m idx ((d.addr.toNat, bs) :: ps) m'

/-- The words that show a used entry: the entry, and the index that counts it. -/
def usedWords (q : QueueState) (head : BitVec 16) (len : BitVec 32) : List (Piece UInt8) :=
  [(q.usedEntryAddr.toNat, le 4 head.toNat), ((q.usedEntryAddr + 4).toNat, le 4 len.toNat),
    (q.usedIdxAddr.toNat, le 2 (q.usedCount + 1).toNat)]

/-- Between `d` and `d'` the guest was shown `bytes`: pieces in the buffers of the posted chain,
their bytes up to the length the used entry says, the entry and the index over them. -/
structure Shown (d d' : VirtioMmio V P) (bytes : List UInt8) : Prop where
  filled : ∃ head pieces m len, d.posted .rxq = some head ∧ Fills (d.queues .rxq) d.mem head pieces m ∧
    bytes = (pieces.flatMap Prod.snd).take len.toNat ∧
    Laid m (usedWords (d.queues .rxq) head len) d'.mem
  counted : d'.queues .rxq = { d.queues .rxq with
    nextAvail := (d.queues .rxq).nextAvail + 1, usedCount := (d.queues .rxq).usedCount + 1 }

/-! ## Chains that account for their bytes -/

/-- The used entry and the used index lie inside a memory of `size` bytes. -/
def UsedWritable (size : Nat) (q : QueueState) : Prop :=
  q.usedEntryAddr.toNat + 4 ≤ size ∧ (q.usedEntryAddr + 4).toNat + 4 ≤ size ∧ q.usedIdxAddr.toNat + 2 ≤ size

/-- A chain that ends may have taken nothing, or bytes that the length field can count and an
entry that can be written. -/
def Accounted (used : Prop) (n : Nat) : Prop := n = 0 ∨ n < 2 ^ 32 ∧ used

/-- The chain at a descriptor, met with `n` bytes taken: where it breaks nothing was taken, and
where it ends the bytes are accounted for. -/
def ChainFits (used : Prop) (q : QueueState) : Nat → V.GuestMemoryMmap → BitVec 16 → List UInt8 → Nat → Prop
  | 0, _, _, _, n => n = 0
  | hops + 1, m, idx, out, n =>
      match readDescriptor m q idx with
      | none => n = 0
      | some d =>
          match fill m d out with
          | (false, _) => n + (d.chunk out).length = 0
          | (true, m) =>
              if !d.hasNext || (d.rest out).isEmpty then Accounted used (n + (d.chunk out).length)
              else ChainFits used q hops m d.next (d.rest out) (n + (d.chunk out).length)

/-- The chain that a turn of `drain_rx` would fill. -/
def RxFits (d : VirtioMmio V P) : Prop :=
  ∀ head, d.outbuf ≠ [] → d.posted .rxq = some head →
    ChainFits (UsedWritable (V.size d.mem) (d.queues .rxq)) (d.queues .rxq) (d.queues .rxq).num d.mem head
      d.outbuf 0

/-! ## One walk -/

theorem size_writeBytes (m : V.GuestMemoryMmap) (gpa : BitVec 64) (bs : List UInt8) :
    V.size (writeBytes m gpa bs).2 = V.size m := V.size_writeSlice _ _ _

/-- A write of some bytes succeeds exactly when they fit. -/
theorem writeBytes_ok_iff {m : V.GuestMemoryMmap} {gpa : BitVec 64} {bs : List UInt8} (hne : bs ≠ []) :
    (writeBytes m gpa bs).1 = true ↔ gpa.toNat + bs.length ≤ V.size m := by
  constructor
  · intro hok
    by_contra hout
    obtain ⟨e, he⟩ := V.write_outside hne (Nat.lt_of_not_le hout)
    simp [writeBytes, he, Except.isOk, Except.toBool] at hok
  · intro hin
    simp [writeBytes, V.write_inside hne hin, Except.isOk, Except.toBool]

theorem size_fill (m : V.GuestMemoryMmap) (d : Descriptor) (out : List UInt8) :
    V.size (fill m d out).2 = V.size m := by
  rw [fill]
  split
  · exact size_writeBytes _ _ _
  · rfl

theorem chunk_append_rest (d : Descriptor) (out : List UInt8) : d.chunk out ++ d.rest out = out := by
  rw [Descriptor.chunk, Descriptor.rest]
  split
  · exact List.take_append_drop _ _
  · rfl

theorem scatter_spec (used : Prop) (q : QueueState) (hops : Nat) (m : V.GuestMemoryMmap) (idx : BitVec 16)
    (out : List UInt8) (n : Nat) :
    (scatterWritable q hops m idx out).taken ++ (scatterWritable q hops m idx out).pending = out ∧
      V.size (scatterWritable q hops m idx out).mem = V.size m ∧
      (ChainFits used q hops m idx out n ↔
        ((scatterWritable q hops m idx out).ended = true →
          Accounted used (n + (scatterWritable q hops m idx out).taken.length)) ∧
        ((scatterWritable q hops m idx out).ended = false →
          n + (scatterWritable q hops m idx out).taken.length = 0)) := by
  induction hops generalizing m idx out n with
  | zero => simp [scatterWritable, ChainFits]
  | succ hops ih =>
      rw [scatterWritable, ChainFits]
      cases readDescriptor m q idx with
      | none => simp
      | some d =>
          have hcut := chunk_append_rest d out
          have hsize := size_fill m d out
          dsimp only
          generalize fill m d out = written at hsize ⊢
          obtain ⟨_ | _, m'⟩ := written
          · exact ⟨hcut, hsize, by simp⟩
          · dsimp only at hsize ⊢
            split
            · exact ⟨hcut, hsize, by simp⟩
            · obtain ⟨hout, hmem, hfits⟩ := ih m' d.next (d.rest out) (n + (d.chunk out).length)
              refine ⟨?_, hmem.trans hsize, ?_⟩
              · rw [List.append_assoc, hout, hcut]
              · rw [hfits, List.length_append, Nat.add_assoc]

/-- A write that succeeded lays its bytes down. -/
theorem laid_writeBytes {m : V.GuestMemoryMmap} {gpa : BitVec 64} {bs : List UInt8}
    (hok : (writeBytes m gpa bs).1 = true) : Laid m [(gpa.toNat, bs)] (writeBytes m gpa bs).2 := by
  have hslice : (V.writeSlice m bs gpa.toNat).1 = .ok () := by
    rw [writeBytes] at hok
    cases hw : (V.writeSlice m bs gpa.toNat).1 with
    | ok u => rfl
    | error e => simp [hw, Except.isOk, Except.toBool] at hok
  exact laid_write (write_eq_ok.mpr ⟨hslice, rfl⟩)

/-- What a walk that ends well took is in the buffers it went through. -/
theorem scatter_fills (q : QueueState) (hops : Nat) (m : V.GuestMemoryMmap) (idx : BitVec 16) {out : List UInt8}
    (hne : out ≠ []) (hended : (scatterWritable q hops m idx out).ended = true) :
    ∃ pieces, Fills q m idx pieces (scatterWritable q hops m idx out).mem ∧
      pieces.flatMap Prod.snd = (scatterWritable q hops m idx out).taken := by
  induction hops generalizing m idx out with
  | zero => cases hended
  | succ hops ih =>
      rw [scatterWritable] at hended ⊢
      cases hd : readDescriptor m q idx with
      | none => rw [hd] at hended; cases hended
      | some d =>
          rw [hd] at hended
          dsimp only at hended ⊢
          cases hw : d.writable with
          | false =>
              -- nothing is taken here, and memory stays as it is
              have hfill : fill m d out = (true, m) := by simp [fill, hw]
              have hchunk : d.chunk out = [] := by simp [Descriptor.chunk, hw]
              have hrest : d.rest out = out := by simp [Descriptor.rest, hw]
              rw [hfill, hchunk, hrest] at hended ⊢
              dsimp only at hended ⊢
              split at hended
              case isTrue hend =>
                rw [if_pos hend]
                exact ⟨[], .stop hd hw, rfl⟩
              case isFalse hgo =>
                rw [if_neg hgo]
                obtain ⟨pieces, hfills, hbytes⟩ := ih m d.next hne hended
                exact ⟨pieces, .skip hd hw (by simp [hne] at hgo; exact hgo) hfills, hbytes⟩
          | true =>
              have hfill : fill m d out = writeBytes m d.addr (d.chunk out) := by simp [fill, hw, hne]
              have hchunk : d.chunk out = out.take d.len.toNat := by simp [Descriptor.chunk, hw]
              have hrest : d.rest out = out.drop d.len.toNat := by simp [Descriptor.rest, hw]
              rw [hfill] at hended ⊢
              cases hput : writeBytes m d.addr (d.chunk out) with
              | mk ok m₁ =>
                  cases ok with
                  | false => rw [hput] at hended; cases hended
                  | true =>
                      have hlaid := laid_writeBytes (by rw [hput] : (writeBytes m d.addr (d.chunk out)).1 = true)
                      rw [hput] at hended hlaid
                      dsimp only at hended hlaid ⊢
                      split at hended
                      case isTrue hend =>
                        rw [if_pos hend]
                        refine ⟨_, .last hd hw ?_ hlaid, by simp⟩
                        rw [hchunk]
                        exact List.length_take_le _ _
                      case isFalse hgo =>
                        rw [if_neg hgo]
                        simp only [Bool.or_eq_true, Bool.not_eq_true', List.isEmpty_iff, not_or,
                          Bool.not_eq_false] at hgo
                        obtain ⟨pieces, hfills, hbytes⟩ := ih m₁ d.next hgo.2 hended
                        refine ⟨_, .full hd hw ?_ hgo.1 hlaid hfills, by simp [hbytes]⟩
                        -- bytes are left over, so the buffer is full
                        rw [hrest] at hgo
                        rw [hchunk, List.length_take]
                        have := List.length_pos_iff.mpr hgo.2
                        rw [List.length_drop] at this
                        omega

theorem writeU32_ok_iff {m : V.GuestMemoryMmap} {gpa : BitVec 64} {v : BitVec 32} :
    (writeU32 m gpa v).1 = true ↔ gpa.toNat + 4 ≤ V.size m := by
  rw [writeU32, writeBytes_ok_iff (by simp [le]), length_le]

theorem writeU16_ok_iff {m : V.GuestMemoryMmap} {gpa : BitVec 64} {v : BitVec 16} :
    (writeU16 m gpa v).1 = true ↔ gpa.toNat + 2 ≤ V.size m := by
  rw [writeU16, writeBytes_ok_iff (by simp [le]), length_le]

/-- The memory with the first word of the next used entry written, and with both. -/
abbrev withUsedId (m : V.GuestMemoryMmap) (q : QueueState) (id : BitVec 32) : V.GuestMemoryMmap :=
  (writeU32 m q.usedEntryAddr id).2

abbrev withUsedEntry (m : V.GuestMemoryMmap) (q : QueueState) (id len : BitVec 32) : V.GuestMemoryMmap :=
  (writeU32 (withUsedId m q id) (q.usedEntryAddr + 4) len).2

theorem size_withUsedId (m : V.GuestMemoryMmap) (q : QueueState) (id : BitVec 32) :
    V.size (withUsedId m q id) = V.size m := size_writeBytes _ _ _

theorem size_withUsedEntry (m : V.GuestMemoryMmap) (q : QueueState) (id len : BitVec 32) :
    V.size (withUsedEntry m q id len) = V.size m :=
  (size_writeBytes _ _ _).trans (size_withUsedId m q id)

/-- The writes of an entry stop at the first word that does not fit. -/
theorem publishUsed_eq (m : V.GuestMemoryMmap) (q : QueueState) (id len : BitVec 32) :
    publishUsed m q id len =
      if q.usedEntryAddr.toNat + 4 ≤ V.size m then
        if (q.usedEntryAddr + 4).toNat + 4 ≤ V.size m then
          ((writeU16 (withUsedEntry m q id len) q.usedIdxAddr (q.usedCount + 1)).1,
            { q with usedCount := q.usedCount + 1 },
            (writeU16 (withUsedEntry m q id len) q.usedIdxAddr (q.usedCount + 1)).2)
        else (false, q, withUsedEntry m q id len)
      else (false, q, withUsedId m q id) := by
  have hid : (writeU32 m q.usedEntryAddr id).1 = true ↔ q.usedEntryAddr.toNat + 4 ≤ V.size m := writeU32_ok_iff
  have hlen : (writeU32 (withUsedId m q id) (q.usedEntryAddr + 4) len).1 = true ↔
      (q.usedEntryAddr + 4).toNat + 4 ≤ V.size m := size_withUsedId m q id ▸ writeU32_ok_iff
  rw [publishUsed, withUsedEntry]
  simp only [← hid, ← hlen]
  rw [withUsedId]
  obtain ⟨_ | _, m₁⟩ := writeU32 m q.usedEntryAddr id
  · rfl
  · dsimp only
    obtain ⟨_ | _, m₂⟩ := writeU32 m₁ (q.usedEntryAddr + 4) len <;> rfl

/-- An entry is shown exactly when its three words can be written. -/
theorem publishUsed_shown (m : V.GuestMemoryMmap) (q : QueueState) (id len : BitVec 32) :
    (publishUsed m q id len).1 = true ↔ UsedWritable (V.size m) q := by
  have hidx : (writeU16 (withUsedEntry m q id len) q.usedIdxAddr (q.usedCount + 1)).1 = true ↔
      q.usedIdxAddr.toNat + 2 ≤ V.size m := size_withUsedEntry m q id len ▸ writeU16_ok_iff
  rw [publishUsed_eq, UsedWritable]
  by_cases hfst : q.usedEntryAddr.toNat + 4 ≤ V.size m
  · by_cases hsnd : (q.usedEntryAddr + 4).toNat + 4 ≤ V.size m
    · rw [if_pos hfst, if_pos hsnd]
      exact hidx.trans ⟨fun h => ⟨hfst, hsnd, h⟩, fun h => h.2.2⟩
    · rw [if_pos hfst, if_neg hsnd]
      exact ⟨fun h => (Bool.false_ne_true h).elim, fun h => absurd h.2.1 hsnd⟩
  · rw [if_neg hfst]
    exact ⟨fun h => (Bool.false_ne_true h).elim, fun h => absurd h.1 hfst⟩

/-- An entry that is shown is laid down, and counted. -/
theorem laid_publishUsed {m : V.GuestMemoryMmap} {q : QueueState} {id len : BitVec 32}
    (hshown : (publishUsed m q id len).1 = true) :
    Laid m [(q.usedEntryAddr.toNat, le 4 id.toNat), ((q.usedEntryAddr + 4).toNat, le 4 len.toNat),
        (q.usedIdxAddr.toNat, le 2 (q.usedCount + 1).toNat)] (publishUsed m q id len).2.2 ∧
      (publishUsed m q id len).2.1 = { q with usedCount := q.usedCount + 1 } := by
  obtain ⟨hfst, hsnd, hidx⟩ := (publishUsed_shown m q id len).mp hshown
  rw [publishUsed_eq, if_pos hfst, if_pos hsnd]
  have hid : Laid m _ (withUsedId m q id) := laid_writeBytes (writeU32_ok_iff.mpr hfst)
  have hlen : Laid (withUsedId m q id) _ (withUsedEntry m q id len) :=
    laid_writeBytes (writeU32_ok_iff.mpr (by rw [size_withUsedId]; exact hsnd))
  have hcount : Laid (withUsedEntry m q id len) _ (writeU16 _ q.usedIdxAddr (q.usedCount + 1)).2 :=
    laid_writeBytes (writeU16_ok_iff.mpr (by rw [size_withUsedEntry]; exact hidx))
  exact ⟨(hid.trans hlen).trans hcount, rfl⟩

/-! ## One turn -/

@[simp] theorem complete_outbuf (d : VirtioMmio V P) (i : QueueId) (head : BitVec 16) (len : BitVec 32) :
    (d.complete i head len).2.outbuf = d.outbuf := rfl

theorem complete_shown (d : VirtioMmio V P) (i : QueueId) (head : BitVec 16) (len : BitVec 32) :
    (d.complete i head len).1 = true ↔ UsedWritable (V.size d.mem) (d.queues i) :=
  publishUsed_shown d.mem { d.queues i with nextAvail := (d.queues i).nextAvail + 1 } (head.setWidth 32) len

/-- The bytes of an entry are the bytes taken for it, exactly when they are accounted for. -/
theorem shown_bytes_iff {used : Prop} {shown : Bool} (hshown : shown = true ↔ used) (taken : List UInt8) :
    (if shown then taken.take (BitVec.ofNat 32 taken.length).toNat else []) = taken ↔
      Accounted used taken.length := by
  rw [BitVec.toNat_ofNat, Accounted, ← hshown]
  cases shown with
  | false =>
      rw [if_neg Bool.false_ne_true, eq_comm, ← List.length_eq_zero_iff]
      simp
  | true =>
      rw [if_pos rfl, List.take_eq_self_iff]
      have := Nat.mod_lt taken.length (show 0 < 2 ^ 32 by decide)
      constructor
      · intro hle
        exact .inr ⟨by omega, rfl⟩
      · rintro (hzero | ⟨hlt, -⟩)
        · omega
        · rw [Nat.mod_eq_of_lt hlt]

/-- A turn takes bytes from the peer; those it shows the guest are all of them exactly when the
chain fits. -/
theorem drainRx_spec (d : VirtioMmio V P) : ∃ taken, taken ++ d.drainRx.1.outbuf = d.outbuf ∧
    (d.drainRx.2.getD [] = taken ↔ RxFits d) := by
  rw [VirtioMmio.drainRx]
  split
  case isTrue hempty =>
    refine ⟨[], rfl, iff_of_true rfl fun head hne => ?_⟩
    exact absurd (List.isEmpty_iff.mp hempty) hne
  case isFalse hne =>
    split
    case h_1 hnone =>
      refine ⟨[], rfl, iff_of_true rfl fun head _ hhead => ?_⟩
      rw [hnone] at hhead
      cases hhead
    case h_2 head hhead =>
      obtain ⟨hout, hsize, hfits⟩ := scatter_spec (UsedWritable (V.size d.mem) (d.queues .rxq)) (d.queues .rxq)
        (d.queues .rxq).num d.mem head d.outbuf 0
      have hrx : RxFits d ↔ _ :=
        ⟨fun h => hfits.mp (h head (by simpa using hne) hhead), fun h head' _ hhead' => by
          rw [hhead] at hhead'
          cases hhead'
          exact hfits.mpr h⟩
      generalize scatterWritable (d.queues .rxq) (d.queues .rxq).num d.mem head d.outbuf = r at hout hsize hrx ⊢
      rw [hrx, Nat.zero_add]
      dsimp only
      refine ⟨r.taken, ?_, ?_⟩
      · split <;> exact hout
      · split
        case isTrue hbroken =>
          have hended : r.ended = false := by simpa using hbroken
          simp [hended, eq_comm]
        case isFalse hended =>
          have hended : r.ended = true := by simpa using hended
          have hshown := complete_shown { d with mem := r.mem, outbuf := r.pending } .rxq head
            (.ofNat 32 r.taken.length)
          rw [hsize] at hshown
          have hiff := shown_bytes_iff hshown r.taken
          simpa [hended] using hiff

/-- A turn shows the guest nothing, or what memory holds of it. -/
theorem drainRx_shown {d d' : VirtioMmio V P} {bytes : List UInt8} (hturn : d.drainRx = (d', some bytes)) :
    bytes = [] ∨ Shown d d' bytes := by
  rw [VirtioMmio.drainRx] at hturn
  split at hturn
  · cases hturn
  case isFalse hne =>
    split at hturn
    · cases hturn
    case h_2 head hhead =>
      have hout : d.outbuf ≠ [] := by simpa using hne
      have hfills := scatter_fills (d.queues .rxq) (d.queues .rxq).num d.mem head hout
      generalize scatterWritable (d.queues .rxq) (d.queues .rxq).num d.mem head d.outbuf = r at hturn hfills
      dsimp only at hturn
      split at hturn
      · cases hturn
      case isFalse hended =>
        obtain ⟨pieces, hfilled, htaken⟩ := hfills (by simpa using hended)
        cases hturn
        split
        case isFalse => exact .inl rfl
        case isTrue hshown =>
          obtain ⟨hlaid, hcount⟩ := laid_publishUsed hshown
          have hid : (head.setWidth 32).toNat = head.toNat := by
            rw [BitVec.toNat_setWidth, Nat.mod_eq_of_lt (by omega)]
          rw [hid] at hlaid
          refine .inr ⟨⟨head, pieces, r.mem, _, hhead, hfilled, by rw [htaken], hlaid⟩, ?_⟩
          show Function.update d.queues .rxq _ .rxq = _
          rw [Function.update_self]
          exact hcount

/-! ## Runs -/

namespace Machine

/-- What was shown and what is pending is what was put out. -/
def Intact (s : Machine V P) : Prop := s.delivered ++ s.dev.outbuf = s.produced

/-- The chain that a turn of `drain_rx` would fill accounts for its bytes. -/
def RxGuard (s : Machine V P) (_ : Action V) : Prop := s.mode = .drainRx → RxFits s.dev

/-- What a step did to the two streams: the peer put out what it answered to what it was fed, and
the guest was shown what memory holds of it. -/
structure Streams (s s' : Machine V P) : Prop where
  produced : s'.dev.host = s.dev.host ∧ s'.produced = s.produced ∨
    ∃ fed out, P.pushGuestBytes s.dev.host fed = (s'.dev.host, out) ∧ s'.produced = s.produced ++ out
  delivered : s'.delivered = s.delivered ∨
    ∃ bytes, s'.delivered = s.delivered ++ bytes ∧ Shown s.dev s'.dev bytes

theorem onSelected_outbuf (d : VirtioMmio V P) (f : QueueState → QueueState) : (d.onSelected f).outbuf = d.outbuf := by
  rw [VirtioMmio.onSelected]
  split
  · rfl
  · split <;> rfl

theorem writeReg_outbuf (d : VirtioMmio V P) (offset : Nat) (v : BitVec 32) :
    (d.writeReg offset v).outbuf = d.outbuf := by
  simp only [VirtioMmio.writeReg, VirtioMmio.reset, apply_ite VirtioMmio.outbuf, onSelected_outbuf, ite_self]

theorem intact_notify {s : Machine V P} (h : s.Intact) (q : BitVec 32) : (s.notify q).Intact := by
  rw [notify]
  repeat' split
  all_goals exact h

theorem intact_idle {s : Machine V P} (h : s.Intact) (hidle : s.mode = .idle) (a : Action V) : (s.step a).Intact := by
  simp only [step, hidle]
  cases a with
  | memory m => exact h
  | tick => exact h
  | write offset data =>
      dsimp only
      split
      · rw [writeReg]
        split
        · exact intact_notify h _
        · rw [Intact]
          exact (congrArg _ (writeReg_outbuf _ _ _)).trans h
      · exact h

theorem intact_processTx {s : Machine V P} (h : s.Intact) (hmode : s.mode = .processTx) (a : Action V) :
    (s.step a).Intact := by
  simp only [step, hmode]
  split
  · exact h
  case h_2 dev out hturn =>
    have hout : dev.outbuf = s.dev.outbuf ++ out := by
      simp only [VirtioMmio.processTx, Option.bind_eq_bind, Option.bind_eq_some_iff] at hturn
      obtain ⟨head, -, bytes, -, hturn⟩ := hturn
      cases hturn
      rfl
    show s.delivered ++ dev.outbuf = s.produced ++ out
    rw [hout, ← List.append_assoc, h]

theorem intact_drainRx_iff {s : Machine V P} (h : s.Intact) (hmode : s.mode = .drainRx) (a : Action V) :
    (s.step a).Intact ↔ RxFits s.dev := by
  obtain ⟨taken, hcut, hiff⟩ := drainRx_spec s.dev
  have hstep : (s.step a).Intact ↔ s.delivered ++ s.dev.drainRx.2.getD [] ++ s.dev.drainRx.1.outbuf = s.produced := by
    simp only [step, hmode]
    split
    case h_1 dev hturn =>
      rw [hturn, Option.getD_none, List.append_nil]
      rfl
    case h_2 dev bytes hturn =>
      rw [hturn, Option.getD_some]
      rfl
  rw [hstep, ← hiff, ← h, ← hcut, ← List.append_assoc, List.append_left_inj, List.append_right_inj]

theorem intact_step {s : Machine V P} (a : Action V) (hg : RxGuard s a) (h : s.Intact) : (s.step a).Intact := by
  cases hmode : s.mode with
  | idle => exact intact_idle h hmode a
  | processTx => exact intact_processTx h hmode a
  | drainRx => exact (intact_drainRx_iff h hmode a).mpr (hg hmode)

theorem not_intact_step {s : Machine V P} (a : Action V) (h : s.Intact) (hg : ¬RxGuard s a) : ¬(s.step a).Intact := by
  intro hstep
  obtain ⟨hmode, hno⟩ := Classical.not_imp.mp hg
  exact hno ((intact_drainRx_iff h hmode a).mp hstep)

/-! ### The streams -/

theorem onSelected_host (d : VirtioMmio V P) (f : QueueState → QueueState) : (d.onSelected f).host = d.host := by
  rw [VirtioMmio.onSelected]
  split
  · rfl
  · split <;> rfl

theorem writeReg_host (d : VirtioMmio V P) (offset : Nat) (v : BitVec 32) :
    (d.writeReg offset v).host = d.host := by
  simp only [VirtioMmio.writeReg, VirtioMmio.reset, VirtioMmio.new, apply_ite VirtioMmio.host, onSelected_host,
    ite_self]

theorem Streams.still {s s' : Machine V P} (hhost : s'.dev.host = s.dev.host) (hprod : s'.produced = s.produced)
    (hdel : s'.delivered = s.delivered) : Streams s s' := ⟨.inl ⟨hhost, hprod⟩, .inl hdel⟩

theorem streams_idle {s : Machine V P} (hidle : s.mode = .idle) (a : Action V) : Streams s (s.step a) := by
  simp only [step, hidle]
  cases a with
  | memory m => exact .still rfl rfl rfl
  | tick => exact .still rfl rfl rfl
  | write offset data =>
      dsimp only
      split
      · rw [writeReg]
        split
        · rw [notify]
          repeat' split
          all_goals exact .still rfl rfl rfl
        · exact .still (writeReg_host _ _ _) rfl rfl
      · exact .still rfl rfl rfl

theorem streams_processTx {s : Machine V P} (hmode : s.mode = .processTx) (a : Action V) :
    Streams s (s.step a) := by
  simp only [step, hmode]
  split
  · exact .still rfl rfl rfl
  case h_2 dev out hturn =>
    simp only [VirtioMmio.processTx, Option.bind_eq_bind, Option.bind_eq_some_iff] at hturn
    obtain ⟨head, -, bytes, -, hturn⟩ := hturn
    cases hturn
    exact ⟨.inr ⟨bytes, _, rfl, rfl⟩, .inl rfl⟩

theorem drainRx_host (d : VirtioMmio V P) : d.drainRx.1.host = d.host := by
  rw [VirtioMmio.drainRx]
  split
  · rfl
  · split
    · rfl
    · dsimp only
      split <;> rfl

theorem streams_drainRx {s : Machine V P} (hmode : s.mode = .drainRx) (a : Action V) : Streams s (s.step a) := by
  have hhost := drainRx_host s.dev
  simp only [step, hmode]
  split
  case h_1 dev hturn =>
    rw [hturn] at hhost
    exact .still hhost rfl rfl
  case h_2 dev bytes hturn =>
    rw [hturn] at hhost
    refine ⟨.inl ⟨hhost, rfl⟩, ?_⟩
    rcases drainRx_shown hturn with rfl | hshown
    · exact .inl (List.append_nil _)
    · exact .inr ⟨bytes, rfl, hshown⟩

theorem streams_step (s : Machine V P) (a : Action V) : Streams s (s.step a) := by
  cases hmode : s.mode with
  | idle => exact streams_idle hmode a
  | processTx => exact streams_processTx hmode a
  | drainRx => exact streams_drainRx hmode a

/-- In every state of the run the bytes the guest was shown, as memory held them when it was, are a
beginning of what the peer put out, and the others are pending. -/
structure RxIntact (mem : V.GuestMemoryMmap) (host : P.State) (as : List (Action V)) : Prop where
  intact : ∀ pre post, as = pre ++ post → Intact (exec step (start mem host) pre)
  streams : ∀ pre a post, as = pre ++ a :: post →
    Streams (exec step (start mem host) pre) ((exec step (start mem host) pre).step a)

/-- Whatever the guest does and the peer puts out, the receive stream is intact exactly when every
chain that was filled accounted for its bytes. -/
theorem rx_stream_intact_iff (mem : V.GuestMemoryMmap) (host : P.State) (as : List (Action V)) :
    RxIntact mem host as ↔ Guarded step RxGuard (start mem host) as := by
  have hiff : (∀ pre post, as = pre ++ post → Intact (exec step (start mem host) pre)) ↔
      Guarded step RxGuard (start mem host) as :=
    always_iff_guarded (fun _ a hg h => intact_step a hg h) (fun _ h => h)
      (fun _ a h hg => not_intact_step a h hg) as rfl
  exact ⟨fun h => hiff.mp h.intact, fun h => ⟨hiff.mpr h, fun _ a _ _ => streams_step _ a⟩⟩

/-! ## A chain that breaks -/

/-- A peer that answers with what it is fed. -/
def echoPeer : HostPeer := ⟨Unit, fun _ bytes => ((), bytes)⟩

/-- The driver's setup of a queue of four. -/
def queueSetup (sel desc driver device : Nat) : List (Action flat) :=
  [.write R.QUEUE_SEL (le 4 sel), .write R.QUEUE_NUM (le 4 4), .write R.QUEUE_DESC_LOW (le 4 desc),
    .write R.QUEUE_DRIVER_LOW (le 4 driver), .write R.QUEUE_DEVICE_LOW (le 4 device),
    .write R.QUEUE_READY (le 4 1)]

/-- Four bytes to send, and a receive chain of two buffers of two bytes. -/
def twoBuffers (second : Nat) : Flat where
  size := 0x1000
  byte := fun i => (overlay [(0x100, le 8 0x300 ++ le 4 2 ++ le 2 3 ++ le 2 1),
    (0x110, le 8 second ++ le 4 2 ++ le 2 2 ++ le 2 0), (0x200, le 2 0 ++ le 2 1 ++ le 2 0),
    (0x400, le 8 0x500 ++ le 4 4 ++ le 2 0 ++ le 2 0), (0x440, le 2 0 ++ le 2 1 ++ le 2 0),
    (0x500, [1, 2, 3, 4])] i).getD 0
  size_lt := by decide

/-- The second buffer lies outside the memory. -/
def brokenChain : Flat := twoBuffers 0xFFFF0000

def brokenChainRun : List (Action flat) :=
  queueSetup 0 0x100 0x200 0x240 ++ queueSetup 1 0x400 0x440 0x480 ++
    [.write R.STATUS (le 4 4), .write R.QUEUE_NOTIFY (le 4 1), .tick, .tick, .tick]

/-- With the second buffer inside it, both are filled and the entry says four bytes. -/
example :
    let s : Machine flat echoPeer := exec step (start (twoBuffers 0x310) ()) brokenChainRun
    s.delivered = [1, 2, 3, 4] ∧ flat.readSlice s.dev.mem 0x300 2 = .ok [1, 2] ∧
      flat.readSlice s.dev.mem 0x310 2 = .ok [3, 4] ∧ flat.readSlice s.dev.mem 0x248 4 = .ok (le 4 4) := by
  decide

/-- The peer put out four bytes; two were written and two were not, none was shown to the guest
and none is pending. -/
theorem broken_chain_loses_bytes :
    let s : Machine flat echoPeer := exec step (start brokenChain ()) brokenChainRun
    s.mode = .idle ∧ s.produced = [1, 2, 3, 4] ∧ s.delivered = [] ∧ s.dev.outbuf = [] ∧ ¬s.Intact ∧
      ¬RxIntact (P := echoPeer) brokenChain () brokenChainRun := by
  have hrun : ∃ s : Machine flat echoPeer, exec step (start brokenChain ()) brokenChainRun = s ∧
      s.mode = .idle ∧ s.produced = [1, 2, 3, 4] ∧ s.delivered = [] ∧ s.dev.outbuf = [] :=
    ⟨_, rfl, by decide⟩
  obtain ⟨s, hs, hmode, hproduced, hdelivered, hpending⟩ := hrun
  have hlost : ¬s.Intact := by
    rw [Intact, hproduced, hdelivered, hpending]
    decide
  intro s'
  have hs' : s' = s := hs
  rw [hs']
  refine ⟨hmode, hproduced, hdelivered, hpending, hlost, fun h => hlost ?_⟩
  rw [← hs]
  exact h.intact brokenChainRun [] (List.append_nil _).symm

end Machine

end Yuva.Vmm
