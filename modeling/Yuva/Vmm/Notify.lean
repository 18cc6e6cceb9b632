/-
# `Yuva.Vmm.Notify` — a notification returns

The two loops run until the counter of consumed entries meets the avail index, which they
read from guest memory in every turn.  A turn moves the counter by one.  So the loop ends
when the index stays, and it may not when the device's own used ring lies over it:

    device = driver, counters equal       the used index written is the counter: the loop ends
    device = driver, one entry missing    the used index stays one behind for ever

**Proved here.**  In a run whose notifications find, for each queue they start a loop on, the
avail index outside the used ring, or both rings at one address and no index written but the
counter, every notification returns; in every run the entries of a queue are consumed in the
order of their indices, none twice within a lap (`notify_returns`).
-/
import Yuva.Vmm.Stream

namespace Yuva.Vmm

open Yuva.Bytes Yuva.Overlay Yuva.Run

variable {V : VmMemory} {P : HostPeer}

/-! ## What a notification may find -/

namespace QueueState

/-- The avail index is none of the `n` bytes at an address. -/
def Clear (q : QueueState) (gpa : BitVec 64) (n : Nat) : Prop :=
  q.availIdxAddr.toNat + 2 ≤ gpa.toNat ∨ gpa.toNat + n ≤ q.availIdxAddr.toNat

/-- The address of an entry of the used ring. -/
def usedSlotAddr (q : QueueState) (slot : Nat) : BitVec 64 := q.device + .ofNat 64 (4 + 8 * slot)

/-- The avail index lies outside the used ring. -/
def Apart (q : QueueState) : Prop :=
  q.Clear q.usedIdxAddr 2 ∧
    ∀ slot < q.num, q.Clear (q.usedSlotAddr slot) 4 ∧ q.Clear (q.usedSlotAddr slot + 4) 4

/-- The two words of the next used entry lie inside a memory of `size` bytes. -/
def EntryFits (size : Nat) (q : QueueState) : Prop :=
  q.usedEntryAddr.toNat + 4 ≤ size ∧ (q.usedEntryAddr + 4).toNat + 4 ≤ size

/-- The loop on the queue ends: the avail index is out of the way, or both rings are at one
address and the index written over it is the counter, or is never written. -/
def Calm (size : Nat) (q : QueueState) : Prop :=
  q.ready = false ∨ q.num = 0 ∨ q.Apart ∨
    q.device = q.driver ∧ (q.nextAvail = q.usedCount ∨ ¬q.EntryFits size)

instance (q : QueueState) (gpa : BitVec 64) (n : Nat) : Decidable (q.Clear gpa n) :=
  inferInstanceAs (Decidable (_ ∨ _))

instance (q : QueueState) : Decidable q.Apart := inferInstanceAs (Decidable (_ ∧ ∀ slot < q.num, _))

instance (size : Nat) (q : QueueState) : Decidable (q.EntryFits size) := inferInstanceAs (Decidable (_ ∧ _))

instance (size : Nat) (q : QueueState) : Decidable (q.Calm size) := inferInstanceAs (Decidable (_ ∨ _ ∨ _ ∨ _))

end QueueState

/-- The loops that an action starts find their queues calm. -/
def NotifyGuard (s : Machine V P) (a : Action V) : Prop :=
  s.mode = .idle →
    ((s.step a).mode = .processTx → (s.dev.queues .txq).Calm (V.size s.dev.mem)) ∧
      ((s.step a).mode ≠ .idle → (s.dev.queues .rxq).Calm (V.size s.dev.mem))

instance (s : Machine V P) (a : Action V) : Decidable (NotifyGuard s a) :=
  inferInstanceAs (Decidable (_ → _ ∧ _))

/-! ## The avail index under a write -/

/-- The avail index reads the same. -/
structure Keeps (q : QueueState) (m m' : V.GuestMemoryMmap) : Prop where
  size : V.size m' = V.size m
  byte : ∀ i < 2, V.byte m' (q.availIdxAddr.toNat + i) = V.byte m (q.availIdxAddr.toNat + i)

theorem Keeps.refl (q : QueueState) (m : V.GuestMemoryMmap) : Keeps q m m := ⟨rfl, fun _ _ => rfl⟩

theorem Keeps.trans {q : QueueState} {m₁ m₂ m₃ : V.GuestMemoryMmap} (h : Keeps q m₁ m₂)
    (h' : Keeps q m₂ m₃) : Keeps q m₁ m₃ :=
  ⟨h'.size.trans h.size, fun i hi => (h'.byte i hi).trans (h.byte i hi)⟩

theorem keeps_writeBytes {q : QueueState} {gpa : BitVec 64} {bs : List UInt8} {n : Nat} (hlen : bs.length = n)
    (h : q.Clear gpa n) (m : V.GuestMemoryMmap) : Keeps q m (writeBytes m gpa bs).2 where
  size := size_writeBytes m gpa bs
  byte := by
    intro i hi
    refine V.byte_beside (Piece.look_eq_none.mpr ?_)
    rw [hlen]
    rcases h with h | h
    · exact .inl (by omega)
    · exact .inr (by omega)

/-- A word reads what its bytes are, inside the memory. -/
theorem readU16_eq (m : V.GuestMemoryMmap) (gpa : BitVec 64) : readU16 m gpa =
    if gpa.toNat + 2 ≤ V.size m then
      some (.ofNat 16 (unle [V.byte m gpa.toNat, V.byte m (gpa.toNat + 1)])) else none := by
  rw [readU16, readWord]
  split
  case h_1 bs hread =>
    by_cases hin : gpa.toNat + 2 ≤ V.size m
    · rw [V.read_inside (by decide) hin] at hread
      cases hread
      rw [if_pos hin]
      rfl
    · obtain ⟨e, he⟩ := V.read_outside (n := 2) (by decide) (Nat.lt_of_not_le hin)
      rw [he] at hread
      cases hread
  case h_2 e hread =>
    rw [if_neg]
    intro hin
    rw [V.read_inside (by decide) hin] at hread
    cases hread

theorem Keeps.readU16 {q : QueueState} {m m' : V.GuestMemoryMmap} (h : Keeps q m m') :
    readU16 m' q.availIdxAddr = Vmm.readU16 m q.availIdxAddr := by
  have h0 := h.byte 0 (by decide)
  have h1 := h.byte 1 (by decide)
  rw [Nat.add_zero] at h0
  rw [readU16_eq, readU16_eq, h.size, h0, h1]

/-! ## Publishing -/

/-- The next used entry is not over the avail index. -/
def EntryClear (q : QueueState) : Prop := q.Clear q.usedEntryAddr 4 ∧ q.Clear (q.usedEntryAddr + 4) 4

/-- An entry that fits is written, and the index after it. -/
theorem publishUsed_fits {m : V.GuestMemoryMmap} {q : QueueState} (h : q.EntryFits (V.size m)) (id len : BitVec 32) :
    publishUsed m q id len =
      ((writeU16 (withUsedEntry m q id len) q.usedIdxAddr (q.usedCount + 1)).1,
        { q with usedCount := q.usedCount + 1 },
        (writeU16 (withUsedEntry m q id len) q.usedIdxAddr (q.usedCount + 1)).2) := by
  rw [publishUsed_eq, if_pos h.1, if_pos h.2]

/-- An entry that does not fit leaves the counter; one that fits is followed by the index. -/
theorem publishUsed_cases (m : V.GuestMemoryMmap) (q : QueueState) (id len : BitVec 32) :
    (¬q.EntryFits (V.size m) ∧ (publishUsed m q id len).2.1 = q ∧
      V.size (publishUsed m q id len).2.2 = V.size m ∧
      (EntryClear q → Keeps q m (publishUsed m q id len).2.2)) ∨
    (q.EntryFits (V.size m) ∧ (publishUsed m q id len).2.1 = { q with usedCount := q.usedCount + 1 } ∧
      ∃ m₁, V.size m₁ = V.size m ∧ (EntryClear q → Keeps q m m₁) ∧
        (publishUsed m q id len).2.2 = (writeU16 m₁ q.usedIdxAddr (q.usedCount + 1)).2) := by
  have hkeepId : EntryClear q → Keeps q m (withUsedId m q id) :=
    fun h => keeps_writeBytes (length_le 4 _) h.1 m
  have hkeep : EntryClear q → Keeps q m (withUsedEntry m q id len) :=
    fun h => (hkeepId h).trans (keeps_writeBytes (length_le 4 _) h.2 _)
  by_cases hfst : q.usedEntryAddr.toNat + 4 ≤ V.size m
  · by_cases hsnd : (q.usedEntryAddr + 4).toNat + 4 ≤ V.size m
    · rw [publishUsed_fits ⟨hfst, hsnd⟩]
      exact .inr ⟨⟨hfst, hsnd⟩, rfl, _, size_withUsedEntry m q id len, hkeep, rfl⟩
    · rw [publishUsed_eq, if_pos hfst, if_neg hsnd]
      exact .inl ⟨fun h => hsnd h.2, rfl, size_withUsedEntry m q id len, hkeep⟩
  · rw [publishUsed_eq, if_neg hfst]
    exact .inl ⟨fun h => hfst h.1, rfl, size_withUsedId m q id, hkeepId⟩

theorem entryClear_of_apart {q : QueueState} (h : q.Apart) (hnum : q.num ≠ 0) : EntryClear q :=
  h.2 _ (Nat.mod_lt _ (Nat.pos_of_ne_zero hnum))

/-- Behind the avail index of a ring at the same address the used entries are out of its way. -/
theorem entryClear_of_same {q : QueueState} (h : q.device = q.driver) (hnum : q.num ≠ 0) : EntryClear q := by
  have hslot : q.usedCount.toNat % q.num < 4 :=
    Nat.lt_of_lt_of_le (Nat.mod_lt _ (Nat.pos_of_ne_zero hnum)) q.num_le
  have havail : q.availIdxAddr.toNat = (q.driver.toNat + 2) % 2 ^ 64 := by
    rw [QueueState.availIdxAddr, BitVec.toNat_add]
    rfl
  have hentry : q.usedEntryAddr.toNat = (q.driver.toNat + (4 + 8 * (q.usedCount.toNat % q.num))) % 2 ^ 64 := by
    rw [QueueState.usedEntryAddr, h, BitVec.toNat_add, BitVec.toNat_ofNat, Nat.add_mod_mod]
  have hsecond : (q.usedEntryAddr + 4).toNat = (q.usedEntryAddr.toNat + 4) % 2 ^ 64 := by
    rw [BitVec.toNat_add]
    rfl
  generalize q.usedCount.toNat % q.num = slot at hslot hentry
  have hlt := q.driver.isLt
  constructor
  · rw [QueueState.Clear]
    omega
  · rw [QueueState.Clear]
    omega

/-! ## One turn -/

namespace VirtioMmio

/-- How far the counter of a queue is from its avail index. -/
def distance (m : V.GuestMemoryMmap) (q : QueueState) : Nat :=
  match readU16 m q.availIdxAddr with
  | some a => (a - q.nextAvail).toNat
  | none => 0

theorem distance_lt (m : V.GuestMemoryMmap) (q : QueueState) : distance m q < 2 ^ 16 := by
  rw [distance]
  split
  · exact BitVec.isLt _
  · decide

theorem distance_of_read {m : V.GuestMemoryMmap} {q : QueueState} {a : BitVec 16}
    (h : readU16 m q.availIdxAddr = some a) : distance m q = (a - q.nextAvail).toNat := by
  rw [distance, h]

theorem posted_cases {d : VirtioMmio V P} {i : QueueId} {head : BitVec 16} (h : d.posted i = some head) :
    (d.queues i).ready = true ∧ (d.queues i).num ≠ 0 ∧
      ∃ a, readU16 d.mem (d.queues i).availIdxAddr = some a ∧ (d.queues i).nextAvail ≠ a := by
  simp only [posted] at h
  split at h
  · cases h
  case isFalse huse =>
    simp only [Bool.or_eq_true, decide_eq_true_eq, not_or] at huse
    obtain ⟨a, ha, h⟩ := Option.bind_eq_some_iff.mp h
    split at h
    · cases h
    case isFalse hne => exact ⟨by simpa using huse.1, huse.2, a, ha, hne⟩

variable {d : VirtioMmio V P} {i : QueueId} {head : BitVec 16} {len : BitVec 32}

theorem queues_complete_ne {j : QueueId} (h : j ≠ i) : (d.complete i head len).2.queues j = d.queues j :=
  Function.update_of_ne h _ _

theorem queues_complete : (d.complete i head len).2.queues i =
    (publishUsed d.mem { d.queues i with nextAvail := (d.queues i).nextAvail + 1 } (head.setWidth 32) len).2.1 :=
  Function.update_self i _ _

theorem size_complete : V.size (d.complete i head len).2.mem = V.size d.mem := by
  obtain ⟨-, -, hsize, -⟩ | ⟨-, -, m₁, hsize, -, hmem⟩ := publishUsed_cases d.mem
    { d.queues i with nextAvail := (d.queues i).nextAvail + 1 } (head.setWidth 32) len
  · exact hsize
  · exact (congrArg V.size hmem).trans ((size_writeBytes _ _ _).trans hsize)

/-- What makes the loop end is kept by a turn. -/
theorem calm_complete (h : (d.queues i).Calm (V.size d.mem)) :
    ((d.complete i head len).2.queues i).Calm (V.size (d.complete i head len).2.mem) := by
  rw [size_complete, queues_complete]
  obtain ⟨hno, hq, -⟩ | ⟨hfits, hq, -⟩ := publishUsed_cases d.mem
    { d.queues i with nextAvail := (d.queues i).nextAvail + 1 } (head.setWidth 32) len
  · rw [hq]
    exact h.imp id (Or.imp id (Or.imp id fun h => ⟨h.1, .inr hno⟩))
  · rw [hq]
    refine h.imp id (Or.imp id (Or.imp id fun h => ⟨h.1, .inl ?_⟩))
    rcases h.2 with heq | hno
    · exact congrArg (· + 1) heq
    · exact absurd hfits hno

/-- A word that was written reads back. -/
theorem readU16_writeU16 {m : V.GuestMemoryMmap} {gpa : BitVec 64} (hin : gpa.toNat + 2 ≤ V.size m)
    (v : BitVec 16) : readU16 (writeU16 m gpa v).2 gpa = some v := by
  have hok : (V.writeSlice m (le 2 v.toNat) gpa.toNat).1 = .ok () :=
    V.write_inside (by simp [le]) (by rwa [length_le])
  have hsize : V.size (writeU16 m gpa v).2 = V.size m := size_writeBytes _ _ _
  have hbyte : ∀ i b, (le 2 v.toNat)[i]? = some b → V.byte (writeU16 m gpa v).2 (gpa.toNat + i) = b := by
    intro i b hb
    refine (V.byte_written hok _).trans ?_
    rw [Piece.look_add (p := (gpa.toNat, le 2 v.toNat)), hb, Option.getD_some]
  have hlo := hbyte 0 _ rfl
  have hhi := hbyte 1 _ rfl
  rw [Nat.add_zero] at hlo
  rw [readU16_eq, if_pos (by rwa [hsize]), hlo, hhi]
  exact congrArg some (ofNat_unle_le (k := 2) (by decide) v)

theorem distance_next {a n : BitVec 16} (h : n ≠ a) : (a - (n + 1)).toNat < (a - n).toNat := by
  have hne : n.toNat ≠ a.toNat := fun heq => h (BitVec.eq_of_toNat_eq heq)
  have ha := a.isLt
  have hn := n.isLt
  rw [BitVec.toNat_sub, BitVec.toNat_sub, BitVec.toNat_add]
  show (2 ^ 16 - (n.toNat + 1) % 2 ^ 16 + a.toNat) % 2 ^ 16 < (2 ^ 16 - n.toNat + a.toNat) % 2 ^ 16
  omega

/-- A turn brings the counter nearer to the avail index. -/
theorem distance_complete (hcalm : (d.queues i).Calm (V.size d.mem)) (hready : (d.queues i).ready = true)
    (hnum : (d.queues i).num ≠ 0) {a : BitVec 16} (ha : readU16 d.mem (d.queues i).availIdxAddr = some a)
    (hne : (d.queues i).nextAvail ≠ a) :
    distance (d.complete i head len).2.mem ((d.complete i head len).2.queues i) <
      distance d.mem (d.queues i) := by
  rw [distance_of_read ha, queues_complete]
  have hstep := distance_next hne
  have hclear : EntryClear { d.queues i with nextAvail := (d.queues i).nextAvail + 1 } := by
    rcases hcalm with h | h | h | h
    · exact absurd (h.symm.trans hready) (by decide)
    · exact absurd h hnum
    · exact entryClear_of_apart (q := { d.queues i with nextAvail := _ }) h hnum
    · exact entryClear_of_same (q := { d.queues i with nextAvail := _ }) h.1 hnum
  obtain ⟨-, hq, -, hkeep⟩ | ⟨hfits, hq, m₁, hsize, hkeep, hmem⟩ := publishUsed_cases d.mem
    { d.queues i with nextAvail := (d.queues i).nextAvail + 1 } (head.setWidth 32) len
  · rw [hq]
    have hread := (hkeep hclear).readU16.trans ha
    exact Eq.trans_lt (distance_of_read hread) hstep
  · -- the index stays where it is, or it becomes the counter
    rw [hq]
    have hmem' : (d.complete i head len).2.mem =
        (writeU16 m₁ (d.queues i).usedIdxAddr ((d.queues i).usedCount + 1)).2 := hmem
    rcases hcalm with h | h | h | ⟨hsame, heq | hno⟩
    · exact absurd (h.symm.trans hready) (by decide)
    · exact absurd h hnum
    · have hidx : Keeps (d.queues i) m₁ (writeU16 m₁ (d.queues i).usedIdxAddr ((d.queues i).usedCount + 1)).2 :=
        keeps_writeBytes (length_le 2 _) h.1 m₁
      have hread := hidx.readU16.trans ((hkeep hclear).readU16.trans ha)
      rw [← hmem'] at hread
      exact Eq.trans_lt (distance_of_read hread) hstep
    · have hin : (d.queues i).availIdxAddr.toNat + 2 ≤ V.size m₁ := by
        by_contra hout
        rw [readU16_eq, if_neg (hsize ▸ hout)] at ha
        cases ha
      have haddr : (d.queues i).usedIdxAddr = (d.queues i).availIdxAddr := by
        rw [QueueState.usedIdxAddr, hsame, QueueState.availIdxAddr]
      have hread := readU16_writeU16 hin ((d.queues i).usedCount + 1)
      rw [← haddr, ← hmem', haddr] at hread
      refine Eq.trans_lt (distance_of_read hread) ?_
      show ((d.queues i).usedCount + 1 - ((d.queues i).nextAvail + 1)).toNat < _
      rw [← heq, BitVec.sub_self]
      exact Nat.lt_of_le_of_lt (Nat.zero_le _) hstep
    · exact absurd hfits hno

/-! ## The two loops -/

theorem keeps_fill {q : QueueState} {desc : Descriptor} {out : List UInt8} (h : desc.chunk out = [])
    (m : V.GuestMemoryMmap) : Keeps q m (fill m desc out).2 := by
  rw [fill]
  split
  · refine ⟨size_writeBytes _ _ _, fun i _ => V.byte_beside (Piece.look_eq_none.mpr ?_)⟩
    rw [h]
    exact Nat.lt_or_ge _ _
  · exact .refl q m

/-- A chain that takes no byte leaves the memory. -/
theorem keeps_scatter {q q' : QueueState} {hops : Nat} {m : V.GuestMemoryMmap} {idx : BitVec 16} {out : List UInt8}
    (h : (scatterWritable q' hops m idx out).taken = []) : Keeps q m (scatterWritable q' hops m idx out).mem := by
  induction hops generalizing m idx out with
  | zero => exact .refl q m
  | succ hops ih =>
      rw [scatterWritable] at h ⊢
      cases hdesc : readDescriptor m q' idx with
      | none => exact .refl q m
      | some desc =>
          rw [hdesc] at h
          have hkeep : desc.chunk out = [] → Keeps q m (fill m desc out).2 := fun hchunk => keeps_fill hchunk m
          dsimp only at h ⊢
          generalize fill m desc out = w at h hkeep ⊢
          obtain ⟨_ | _, m'⟩ := w
          · exact hkeep h
          · dsimp only at h hkeep ⊢
            split at h
            case isTrue hlast =>
              rw [if_pos hlast]
              exact hkeep h
            case isFalse hmore =>
              rw [if_neg hmore]
              obtain ⟨hchunk, htaken⟩ := List.append_eq_nil_iff.mp h
              exact (hkeep hchunk).trans (ih htaken)

/-- A turn of `process_tx` is a turn of the transmit queue alone. -/
theorem processTx_turn {d d' : VirtioMmio V P} {out : List UInt8} (hcalm : (d.queues .txq).Calm (V.size d.mem))
    (h : d.processTx = some (d', out)) :
    (d'.queues .txq).Calm (V.size d'.mem) ∧
      distance d'.mem (d'.queues .txq) < distance d.mem (d.queues .txq) ∧
      d'.queues .rxq = d.queues .rxq ∧ V.size d'.mem = V.size d.mem := by
  simp only [processTx, Option.bind_eq_bind, Option.bind_eq_some_iff] at h
  obtain ⟨head, hhead, bytes, -, h⟩ := h
  cases h
  obtain ⟨hready, hnum, a, ha, hne⟩ := posted_cases hhead
  exact ⟨calm_complete hcalm, distance_complete hcalm hready hnum ha hne, queues_complete_ne (by decide),
    size_complete⟩

/-- What `drain_rx` has left to do: bytes first, then posted chains. -/
def left (d : VirtioMmio V P) : Nat := d.outbuf.length * 2 ^ 16 + distance d.mem (d.queues .rxq)

theorem drainRx_turn {d d' : VirtioMmio V P} {bytes : List UInt8} (hcalm : (d.queues .rxq).Calm (V.size d.mem))
    (h : d.drainRx = (d', some bytes)) : (d'.queues .rxq).Calm (V.size d'.mem) ∧ d'.left < d.left := by
  rw [drainRx] at h
  split at h
  · cases h
  · split at h
    · cases h
    case h_2 head hhead =>
      obtain ⟨hready, hnum, a, ha, hne⟩ := posted_cases hhead
      obtain ⟨hcut, hsize, -⟩ := scatter_spec True (d.queues .rxq) (d.queues .rxq).num d.mem head d.outbuf 0
      have hkeep : (scatterWritable (d.queues .rxq) (d.queues .rxq).num d.mem head d.outbuf).taken = [] →
          Keeps (d.queues .rxq) d.mem
            (scatterWritable (d.queues .rxq) (d.queues .rxq).num d.mem head d.outbuf).mem := keeps_scatter
      generalize scatterWritable (d.queues .rxq) (d.queues .rxq).num d.mem head d.outbuf = r at h hcut hsize hkeep
      dsimp only at h
      split at h
      · cases h
      · cases h
        have hcalm' : (d.queues .rxq).Calm (V.size r.mem) := hsize.symm ▸ hcalm
        refine ⟨calm_complete (d := { d with mem := r.mem, outbuf := r.pending }) hcalm', ?_⟩
        by_cases htaken : r.taken = []
        · -- nothing was taken, so the index is the one that was read
          rw [htaken, List.nil_append] at hcut
          have hread := (hkeep htaken).readU16.trans ha
          have hsame : distance r.mem (d.queues .rxq) = distance d.mem (d.queues .rxq) :=
            (distance_of_read hread).trans (distance_of_read ha).symm
          rw [left, left, complete_outbuf, ← hcut, ← hsame]
          exact Nat.add_lt_add_left
            (distance_complete (d := { d with mem := r.mem, outbuf := r.pending }) hcalm' hready hnum hread hne) _
        · have hpos : 0 < r.taken.length := List.length_pos_iff.mpr htaken
          have hlen := congrArg List.length hcut
          rw [List.length_append] at hlen
          have hfar := distance_lt ({ d with mem := r.mem, outbuf := r.pending }.complete .rxq head
            (.ofNat 32 r.taken.length)).2.mem (({ d with mem := r.mem, outbuf := r.pending }.complete .rxq head
            (.ofNat 32 r.taken.length)).2.queues .rxq)
          rw [left, left, complete_outbuf]
          dsimp only
          omega

end VirtioMmio

/-! ## Runs -/

namespace Machine

open VirtioMmio (distance left)

/-- The loops that are still to run are on calm queues. -/
def Settled (s : Machine V P) : Prop :=
  (s.mode = .processTx → (s.dev.queues .txq).Calm (V.size s.dev.mem)) ∧
    (s.mode ≠ .idle → (s.dev.queues .rxq).Calm (V.size s.dev.mem))

/-- A notification starts a loop and changes nothing. -/
theorem dev_of_started {s : Machine V P} {a : Action V} (hidle : s.mode = .idle)
    (h : (s.step a).mode ≠ .idle) : (s.step a).dev = s.dev := by
  simp only [step, hidle] at h ⊢
  cases a with
  | memory m => exact absurd rfl h
  | tick => rfl
  | write offset data =>
      dsimp only at h ⊢
      split at h
      case isFalse => exact absurd hidle h
      case isTrue haligned =>
        rw [if_pos haligned]
        rw [writeReg] at h ⊢
        split at h
        case isFalse => exact absurd hidle h
        case isTrue hnotify =>
          rw [if_pos hnotify, notify]
          repeat' split
          all_goals rfl

/-- A turn of `process_tx` goes on with less to do, or to `drain_rx`. -/
theorem step_processTx {s : Machine V P} (hmode : s.mode = .processTx) (h : s.Settled) (a : Action V) :
    (s.step a).Settled ∧ ((s.step a).mode = .drainRx ∨ (s.step a).mode = .processTx ∧
      distance (s.step a).dev.mem ((s.step a).dev.queues .txq) < distance s.dev.mem (s.dev.queues .txq)) := by
  have hrx := h.2 (by rw [hmode]; decide)
  cases hturn : s.dev.processTx with
  | none =>
      have hstep : s.step a = { s with mode := .drainRx } := by simp only [step, hmode, hturn]
      rw [hstep]
      have hno : Mode.drainRx ≠ .processTx := by decide
      exact ⟨⟨fun h => absurd h hno, fun _ => hrx⟩, .inl rfl⟩
  | some next =>
      obtain ⟨d', out⟩ := next
      have hstep : s.step a = { s with dev := d', produced := s.produced ++ out, consumed := s.consume .txq } := by
        simp only [step, hmode, hturn]
      obtain ⟨hcalm, hnear, hqueue, hsize⟩ := VirtioMmio.processTx_turn (h.1 hmode) hturn
      rw [hstep]
      refine ⟨⟨fun _ => hcalm, fun _ => ?_⟩, .inr ⟨hmode, hnear⟩⟩
      show (d'.queues .rxq).Calm (V.size d'.mem)
      rw [hqueue, hsize]
      exact hrx

/-- A turn of `drain_rx` goes on with less to do, or returns. -/
theorem step_drainRx {s : Machine V P} (hmode : s.mode = .drainRx) (h : s.Settled) (a : Action V) :
    (s.step a).Settled ∧ ((s.step a).mode = .idle ∨ (s.step a).mode = .drainRx ∧
      (s.step a).dev.left < s.dev.left) := by
  have hrx := h.2 (by rw [hmode]; decide)
  rcases hturn : s.dev.drainRx with ⟨d', _ | bytes⟩
  · have hstep : s.step a = { s with dev := d', mode := .idle } := by simp only [step, hmode, hturn]
    rw [hstep]
    have hno : Mode.idle ≠ .processTx := by decide
    exact ⟨⟨fun h => absurd h hno, fun h => absurd rfl h⟩, .inl rfl⟩
  · have hstep : s.step a =
        { s with dev := d', delivered := s.delivered ++ bytes, consumed := s.consume .rxq } := by
      simp only [step, hmode, hturn]
    obtain ⟨hcalm, hless⟩ := VirtioMmio.drainRx_turn hrx hturn
    rw [hstep]
    exact ⟨⟨fun htx => absurd (hmode.symm.trans htx) (by decide), fun _ => hcalm⟩, .inr ⟨hmode, hless⟩⟩

theorem settled_step {s : Machine V P} {a : Action V} (hg : NotifyGuard s a) (h : s.Settled) :
    (s.step a).Settled := by
  cases hmode : s.mode with
  | processTx => exact (step_processTx hmode h a).1
  | drainRx => exact (step_drainRx hmode h a).1
  | idle =>
      obtain ⟨htx, hrx⟩ := hg hmode
      refine ⟨fun hstart => ?_, fun hstart => ?_⟩
      · rw [dev_of_started hmode (by rw [hstart]; decide)]
        exact htx hstart
      · rw [dev_of_started hmode hstart]
        exact hrx hstart

theorem drainRx_returns {s : Machine V P} (hmode : s.mode = .drainRx) (h : s.Settled) :
    ∃ k, (exec step s (List.replicate k .tick)).mode = .idle := by
  refine exec_reaches (P := fun s : Machine V P => s.mode = .drainRx ∧ s.Settled) (Q := fun s => s.mode = .idle)
    (fun s => s.dev.left) (fun s hs => ?_) ⟨hmode, h⟩
  obtain ⟨hsettled, hdone | ⟨hmode, hless⟩⟩ := step_drainRx hs.1 hs.2 .tick
  · exact .inl hdone
  · exact .inr ⟨⟨hmode, hsettled⟩, hless⟩

theorem processTx_returns {s : Machine V P} (hmode : s.mode = .processTx) (h : s.Settled) :
    ∃ k, (exec step s (List.replicate k .tick)).mode = .idle := by
  have hdrain : ∃ k, (exec step s (List.replicate k .tick)).mode = .drainRx ∧
      Settled (exec step s (List.replicate k .tick)) := by
    refine exec_reaches (P := fun s : Machine V P => s.mode = .processTx ∧ s.Settled)
      (Q := fun s => s.mode = .drainRx ∧ s.Settled)
      (fun s => distance s.dev.mem (s.dev.queues .txq)) (fun s hs => ?_) ⟨hmode, h⟩
    obtain ⟨hsettled, hdone | ⟨hmode, hless⟩⟩ := step_processTx hs.1 hs.2 .tick
    · exact .inl ⟨hdone, hsettled⟩
    · exact .inr ⟨⟨hmode, hsettled⟩, hless⟩
  obtain ⟨k, hmode', hsettled⟩ := hdrain
  obtain ⟨n, hidle⟩ := drainRx_returns hmode' hsettled
  refine ⟨k + n, ?_⟩
  rw [List.replicate_add, exec_append]
  exact hidle

theorem settled_returns {s : Machine V P} (h : s.Settled) :
    ∃ k, (exec step s (List.replicate k .tick)).mode = .idle := by
  cases hmode : s.mode with
  | idle => exact ⟨0, hmode⟩
  | processTx => exact processTx_returns hmode h
  | drainRx => exact drainRx_returns hmode h

/-! ## Each entry once -/

/-- The indices from zero on, the counter at the next. -/
def UpTo (taken : List (BitVec 16)) (next : BitVec 16) : Prop :=
  taken = (List.range taken.length).map (.ofNat 16) ∧ next = .ofNat 16 taken.length

theorem UpTo.succ {taken : List (BitVec 16)} {next : BitVec 16} (h : UpTo taken next) :
    UpTo (taken ++ [next]) (next + 1) := by
  obtain ⟨htaken, hnext⟩ := h
  refine ⟨?_, ?_⟩
  · rw [List.length_append, List.length_singleton, List.range_succ, List.map_append, ← htaken, hnext]
    rfl
  · rw [hnext, List.length_append, BitVec.ofNat_add]
    rfl

/-- Two entries with one index are a lap apart. -/
theorem UpTo.lap {taken : List (BitVec 16)} {next : BitVec 16} (h : UpTo taken next) {j k : Nat} (hlt : j < k)
    {x : BitVec 16} (hj : taken[j]? = some x) (hk : taken[k]? = some x) : j + 2 ^ 16 ≤ k := by
  have hindex : ∀ n, taken[n]? = some x → n % 2 ^ 16 = x.toNat := by
    intro n hn
    rw [h.1, List.getElem?_map] at hn
    obtain ⟨i, hi, rfl⟩ := Option.map_eq_some_iff.mp hn
    obtain ⟨-, rfl⟩ := List.getElem?_eq_some_iff.mp hi
    rw [List.getElem_range]
    rfl
  have hj := hindex j hj
  have hk := hindex k hk
  omega

/-- The entries of each queue were consumed in the order of their indices. -/
def InOrder (s : Machine V P) : Prop := ∀ i, UpTo (s.consumed i) (s.dev.queues i).nextAvail

theorem onSelected_nextAvail {f : QueueState → QueueState} (hf : ∀ q, (f q).nextAvail = q.nextAvail)
    (d : VirtioMmio V P) (i : QueueId) : ((d.onSelected f).queues i).nextAvail = (d.queues i).nextAvail := by
  have hset : ∀ j, ((d.setQueue j (f (d.queues j))).queues i).nextAvail = (d.queues i).nextAvail := by
    intro j
    by_cases hij : i = j
    · subst hij
      exact (congrArg _ (Function.update_self i _ _)).trans (hf _)
    · exact congrArg _ (Function.update_of_ne hij _ _)
  rw [VirtioMmio.onSelected]
  split
  · exact hset .rxq
  · split
    · exact hset .txq
    · rfl

/-- Only a reset moves a counter back. -/
theorem writeReg_nextAvail (d : VirtioMmio V P) (offset : Nat) (v : BitVec 32) (i : QueueId) :
    ((d.writeReg offset v).queues i).nextAvail =
      if offset = R.STATUS ∧ v = 0 then 0 else (d.queues i).nextAvail := by
  have hnum : ∀ q : QueueState, (q.setNum v).nextAvail = q.nextAvail := by
    intro q
    rw [QueueState.setNum]
    split <;> rfl
  simp only [VirtioMmio.writeReg, apply_ite VirtioMmio.queues, ite_apply, apply_ite QueueState.nextAvail,
    onSelected_nextAvail, hnum, implies_true, ite_self, VirtioMmio.reset, VirtioMmio.new, QueueState.default]
  by_cases hstatus : offset = R.STATUS
  · subst hstatus
    simp [R.STATUS, R.DEVICE_FEATURES_SEL, R.DRIVER_FEATURES, R.DRIVER_FEATURES_SEL, R.QUEUE_SEL, R.QUEUE_NUM,
      R.QUEUE_READY]
  · simp only [hstatus, if_false, false_and, ite_self]

theorem inOrder_idle {s : Machine V P} (hidle : s.mode = .idle) (h : s.InOrder) (a : Action V) :
    (s.step a).InOrder := by
  simp only [step, hidle]
  cases a with
  | memory m => exact h
  | tick => exact h
  | write offset data =>
      dsimp only
      split
      case isFalse => exact h
      case isTrue =>
        rw [writeReg]
        split
        · rw [notify]
          repeat' split
          all_goals exact h
        · intro i
          rw [writeReg_nextAvail]
          dsimp only
          split
          · exact ⟨rfl, rfl⟩
          · exact h i

theorem nextAvail_complete {d : VirtioMmio V P} {i : QueueId} {head : BitVec 16} {len : BitVec 32} :
    ((d.complete i head len).2.queues i).nextAvail = (d.queues i).nextAvail + 1 := by
  rw [VirtioMmio.queues_complete]
  obtain ⟨-, hq, -⟩ | ⟨-, hq, -⟩ := publishUsed_cases d.mem
    { d.queues i with nextAvail := (d.queues i).nextAvail + 1 } (head.setWidth 32) len
  · rw [hq]
  · rw [hq]

/-- A turn consumes the entry at the counter. -/
theorem inOrder_complete {s : Machine V P} (h : s.InOrder) {d : VirtioMmio V P} {i : QueueId} {head : BitVec 16}
    {len : BitVec 32} (hqueues : d.queues = s.dev.queues) (j : QueueId) :
    UpTo (s.consume i j) ((d.complete i head len).2.queues j).nextAvail := by
  by_cases hij : j = i
  · subst hij
    have hcons : s.consume j j = s.consumed j ++ [(s.dev.queues j).nextAvail] := Function.update_self j _ _
    rw [hcons, nextAvail_complete, hqueues]
    exact (h j).succ
  · have hcons : s.consume i j = s.consumed j := Function.update_of_ne hij _ _
    rw [hcons, VirtioMmio.queues_complete_ne hij, hqueues]
    exact h j

theorem inOrder_drainRx {s : Machine V P} (hmode : s.mode = .drainRx) (h : s.InOrder) (a : Action V) :
    (s.step a).InOrder := by
  simp only [step, hmode]
  rw [VirtioMmio.drainRx]
  by_cases hempty : s.dev.outbuf.isEmpty
  · rw [if_pos hempty]
    exact h
  · rw [if_neg hempty]
    cases s.dev.posted .rxq with
    | none => exact h
    | some head =>
        dsimp only
        by_cases hbroken : !(scatterWritable (s.dev.queues .rxq) (s.dev.queues .rxq).num s.dev.mem head
            s.dev.outbuf).ended
        · rw [if_pos hbroken]
          exact h
        · rw [if_neg hbroken]
          exact inOrder_complete h rfl

theorem inOrder_step (s : Machine V P) (a : Action V) (h : s.InOrder) : (s.step a).InOrder := by
  cases hmode : s.mode with
  | idle => exact inOrder_idle hmode h a
  | drainRx => exact inOrder_drainRx hmode h a
  | processTx =>
      simp only [step, hmode]
      split
      · exact h
      case h_2 dev out hturn =>
        simp only [VirtioMmio.processTx, Option.bind_eq_bind, Option.bind_eq_some_iff] at hturn
        obtain ⟨head, -, bytes, -, hturn⟩ := hturn
        cases hturn
        exact inOrder_complete h rfl

/-- In a run whose notifications find calm queues, every notification returns.  Whatever they
find, no entry is consumed twice within a lap of the avail index. -/
theorem notify_returns (mem : V.GuestMemoryMmap) (host : P.State) (as : List (Action V)) :
    (Guarded step NotifyGuard (start mem host) as →
      ∃ k, (exec step (start mem host) (as ++ List.replicate k .tick)).mode = .idle) ∧
    ∀ i j k x, j < k → ((exec step (start mem host) as).consumed i)[j]? = some x →
      ((exec step (start mem host) as).consumed i)[k]? = some x → j + 2 ^ 16 ≤ k := by
  constructor
  · intro hcalm
    have hno : Mode.idle ≠ .processTx := by decide
    have hsettled : Settled (exec step (start mem host) as) :=
      exec_guarded (fun _ _ => settled_step) as hcalm ⟨fun h => absurd h hno, fun h => absurd rfl h⟩
    obtain ⟨k, hk⟩ := settled_returns hsettled
    exact ⟨k, exec_append step _ as _ ▸ hk⟩
  · intro i j k x hlt hj hk
    have horder : InOrder (exec step (start mem host) as) := exec_inv inOrder_step as fun _ => ⟨rfl, rfl⟩
    exact (horder i).lap hlt hj hk

theorem notify_returns_on_broken_chain :
    Guarded step NotifyGuard (start (P := echoPeer) brokenChain ()) brokenChainRun ∧
      ∃ k, (exec step (start (P := echoPeer) brokenChain ()) (brokenChainRun ++ List.replicate k .tick)).mode =
        .idle := by
  have hcalm : Guarded step NotifyGuard (start (P := echoPeer) brokenChain ()) brokenChainRun := by decide
  exact ⟨hcalm, (notify_returns (V := flat) (P := echoPeer) brokenChain () brokenChainRun).1 hcalm⟩

/-! ## A notification that does not return -/

/-- Zeros, but for a descriptor of one byte at `0x200`. -/
def hangByte (i : Nat) : UInt8 := (Piece.look (0x200, le 8 0x300 ++ le 4 1 ++ le 2 0 ++ le 2 0) i).getD 0

def hangMem : Flat where
  size := 0x800
  byte := hangByte
  size_lt := by decide

/-- One chain posted in the ring at `0x100`. -/
def hangStart : Flat where
  size := 0x800
  byte := fun i => if i = 0x102 then 1 else hangByte i
  size_lt := by decide

/-- The chain is consumed while the used ring is outside the memory, and not published. -/
def missedRun : List (Action flat) :=
  queueSetup 1 0x200 0x100 0x2000 ++
    [.write R.STATUS (le 4 4), .write R.QUEUE_NOTIFY (le 4 1), .tick, .tick, .tick,
      .write R.QUEUE_DEVICE_LOW (le 4 0x100)]

/-- Then both rings are at `0x100`. -/
def hangRun : List (Action flat) := missedRun ++ [.memory hangMem, .write R.QUEUE_NOTIFY (le 4 1)]

def hangQueue (count : BitVec 16) : QueueState := ⟨4, true, 0x200, 0x100, 0x100, count + 1, count, by decide⟩

/-- The memory, but for the index that both rings share. -/
structure Hangs (m : Flat) : Prop where
  size : m.size = 0x800
  byte : ∀ i, i ≠ 0x102 → i ≠ 0x103 → m.byte i = hangByte i

theorem Hangs.index_in {m : Flat} (h : Hangs m) : (0x102 : BitVec 64).toNat + 2 ≤ flat.size m :=
  le_of_le_of_eq (by decide) h.size.symm

theorem Hangs.readSlice {m : Flat} (h : Hangs m) {a n : Nat} (ha : a + n ≤ 0x102 ∨ 0x104 ≤ a) :
    m.readSlice a n = hangMem.readSlice a n := by
  have hbytes : (List.range n).map (fun i => m.byte (a + i)) = (List.range n).map fun i => hangMem.byte (a + i) := by
    refine List.map_congr_left fun i hi => h.byte _ ?_ ?_
    all_goals
      have := List.mem_range.mp hi
      omega
  rw [Flat.readSlice, Flat.readSlice, h.size, hbytes]
  rfl

theorem Hangs.write {m : Flat} (h : Hangs m) {gpa : BitVec 64} {bs : List UInt8}
    (hbs : ∀ i b, Piece.look (gpa.toNat, bs) i = some b → i ≠ 0x102 → i ≠ 0x103 → b = hangByte i) :
    Hangs (writeBytes (V := flat) m gpa bs).2 where
  size := h.size
  byte := by
    intro i hlo hhi
    show (if i < m.size then (Piece.look (gpa.toNat, bs) i).getD (m.byte i) else m.byte i) = _
    split
    · cases hlook : Piece.look (gpa.toNat, bs) i with
      | none => exact h.byte i hlo hhi
      | some b => exact hbs i b hlook hlo hhi
    · exact h.byte i hlo hhi

theorem Hangs.write_zero {m : Flat} (h : Hangs m) {gpa : BitVec 64} (hgpa : gpa.toNat + 4 ≤ 0x200) :
    Hangs (writeU32 (V := flat) m gpa 0).2 := by
  refine h.write fun i b hlook _ _ => ?_
  have hin : ¬(i < gpa.toNat ∨ gpa.toNat + 4 ≤ i) := fun hout =>
    Option.some_ne_none b (hlook.symm.trans (Piece.look_eq_none.mpr hout))
  have hzero : b = 0 := by
    obtain ⟨j, rfl⟩ := Nat.exists_eq_add_of_le (show gpa.toNat ≤ i by omega)
    rw [Piece.look_add] at hlook
    exact List.eq_of_mem_replicate (n := 4) (List.mem_of_getElem? hlook)
  have hbase : Piece.look (0x200, le 8 0x300 ++ le 4 1 ++ le 2 0 ++ le 2 0) i = none :=
    Piece.look_eq_none.mpr (.inl (by dsimp only; omega))
  rw [hzero, hangByte, hbase]
  rfl

theorem Hangs.write_index {m : Flat} (h : Hangs m) (v : BitVec 16) :
    Hangs (writeU16 (V := flat) m 0x102 v).2 := by
  refine h.write fun i b hlook hlo hhi => ?_
  have hout : i < 0x102 ∨ 0x102 + 2 ≤ i := by omega
  exact absurd (hlook.symm.trans (Piece.look_eq_none.mpr hout)) (Option.some_ne_none b)

theorem Hangs.readWord {m : Flat} (h : Hangs m) {w n : Nat} {gpa : BitVec 64}
    (hgpa : gpa.toNat + n ≤ 0x102 ∨ 0x104 ≤ gpa.toNat) :
    Vmm.readWord (V := flat) w n m gpa = Vmm.readWord (V := flat) w n hangMem gpa := by
  have hread : flat.readSlice m gpa.toNat n = flat.readSlice hangMem gpa.toNat n := h.readSlice hgpa
  unfold Vmm.readWord
  rw [hread]

/-- A chain of one readable descriptor. -/
theorem gather_single {m : V.GuestMemoryMmap} {q : QueueState} {hops : Nat} {idx : BitVec 16} {desc : Descriptor}
    {buf : List UInt8} (hdesc : readDescriptor m q idx = some desc) (hread : desc.writable = false)
    (hlast : desc.hasNext = false) (hbuf : V.readSlice m desc.addr.toNat desc.len.toNat = .ok buf) :
    gatherReadable m q (hops + 1) idx = some buf := by
  simp [gatherReadable, hdesc, hread, hlast, hbuf]

/-- A chain that is consumed and published. -/
theorem processTx_posted {d : VirtioMmio V P} {head : BitVec 16} {bytes : List UInt8}
    (hhead : d.posted .txq = some head)
    (hbytes : gatherReadable d.mem (d.queues .txq) (d.queues .txq).num head = some bytes) :
    ∃ d' out, d.processTx = some (d', out) ∧ (d'.queues .txq, d'.mem) =
      (publishUsed d.mem { d.queues .txq with nextAvail := (d.queues .txq).nextAvail + 1 }
        (head.setWidth 32) 0).2 := by
  let fed : VirtioMmio V P :=
    { d with host := (P.pushGuestBytes d.host bytes).1, outbuf := d.outbuf ++ (P.pushGuestBytes d.host bytes).2 }
  refine ⟨(fed.complete .txq head 0).2, (P.pushGuestBytes d.host bytes).2, ?_, ?_⟩
  · simp only [VirtioMmio.processTx, hhead, hbytes, Option.bind_eq_bind, Option.bind_some]
    rfl
  · have hqueue : (fed.complete .txq head 0).2.queues .txq = _ := VirtioMmio.queues_complete
    exact Prod.ext hqueue rfl

theorem Hangs.gather {m : Flat} (h : Hangs m) (count : BitVec 16) :
    gatherReadable (V := flat) m (hangQueue count) (hangQueue count).num 0 = some [0] := by
  have hdesc : readDescriptor (V := flat) m (hangQueue count) 0 = some ⟨0x300, 1, 0, 0⟩ := by
    simp only [readDescriptor, readU64, readU32, readU16, hangQueue]
    rw [h.readWord (.inr (by decide)), h.readWord (.inr (by decide)), h.readWord (.inr (by decide)),
      h.readWord (.inr (by decide))]
    decide
  exact gather_single hdesc rfl rfl (h.readSlice (.inr (by decide)))

theorem Hangs.posted {d : VirtioMmio flat echoPeer} (h : Hangs d.mem) {count : BitVec 16}
    (hqueue : d.queues .txq = hangQueue count) (havail : readU16 (V := flat) d.mem 0x102 ≠ some (count + 1)) :
    d.posted .txq = some 0 := by
  obtain ⟨a, ha⟩ : ∃ a, readU16 (V := flat) d.mem 0x102 = some a :=
    ⟨_, (readU16_eq _ _).trans (if_pos h.index_in)⟩
  have hring : ∀ slot < 4, 0x104 ≤ (0x100 + BitVec.ofNat 64 (4 + 2 * slot)).toNat ∧
      readU16 (V := flat) hangMem (0x100 + .ofNat 64 (4 + 2 * slot)) = some 0 := by decide
  obtain ⟨hpast, hzero⟩ := hring _ (Nat.mod_lt (count + 1).toNat (by decide))
  have hread := (h.readWord (w := 16) (n := 2) (.inr hpast)).trans hzero
  have hnext : ¬count + 1 = a := fun heq => havail (heq ▸ ha)
  rw [VirtioMmio.posted, hqueue]
  show (readU16 d.mem 0x102).bind (fun a => if count + 1 = a then none else _) = some 0
  rw [ha, Option.bind_some, if_neg hnext]
  exact hread

theorem Hangs.publish {m : Flat} (h : Hangs m) (count : BitVec 16) :
    ∃ m', Hangs m' ∧ readU16 (V := flat) m' 0x102 = some (count + 1) ∧
      (publishUsed (V := flat) m { hangQueue count with nextAvail := count + 1 + 1 } 0 0).2 =
        (hangQueue (count + 1), m') := by
  have hentry : ∀ slot < 4, (0x100 + BitVec.ofNat 64 (4 + 8 * slot)).toNat + 4 ≤ 0x200 ∧
      (0x100 + BitVec.ofNat 64 (4 + 8 * slot) + 4).toNat + 4 ≤ 0x200 := by decide
  obtain ⟨hid, hlen⟩ := hentry _ (Nat.mod_lt count.toNat (by decide))
  have hsize : flat.size m = 0x800 := h.size
  have hfits : QueueState.EntryFits (flat.size m) { hangQueue count with nextAvail := count + 1 + 1 } := by
    rw [hsize]
    exact ⟨le_trans hid (by decide), le_trans hlen (by decide)⟩
  have hzeros := (h.write_zero hid).write_zero hlen
  have hpublish := congrArg Prod.snd (publishUsed_fits hfits 0 0)
  exact ⟨_, hzeros.write_index (count + 1), VirtioMmio.readU16_writeU16 hzeros.index_in (count + 1), hpublish⟩

/-- A turn on overlaid rings consumes an entry and shows the guest the one before. -/
theorem hangs_turn {d : VirtioMmio flat echoPeer} {count : BitVec 16} (hmem : Hangs d.mem)
    (hqueue : d.queues .txq = hangQueue count) (havail : readU16 (V := flat) d.mem 0x102 ≠ some (count + 1)) :
    ∃ d' out, d.processTx = some (d', out) ∧ Hangs d'.mem ∧ d'.queues .txq = hangQueue (count + 1) ∧
      readU16 (V := flat) d'.mem 0x102 ≠ some (count + 1 + 1) := by
  obtain ⟨m', hmem', hindex, hpublish⟩ := hmem.publish count
  have hbytes := hmem.gather count
  rw [← hqueue] at hbytes
  obtain ⟨d', out, hturn, hafter⟩ := processTx_posted (hmem.posted hqueue havail) hbytes
  rw [hqueue] at hafter
  obtain ⟨hqueue', rfl⟩ := Prod.mk.inj (hafter.trans hpublish)
  have hnext : some (count + 1) ≠ some (count + 1 + 1) := by simp
  exact ⟨d', out, hturn, hmem', hqueue', hindex ▸ hnext⟩

/-- In the loop, with the index behind the counter. -/
structure Hung (s : Machine flat echoPeer) : Prop where
  mode : s.mode = .processTx
  mem : Hangs s.dev.mem
  queue : ∃ count, s.dev.queues .txq = hangQueue count ∧ readU16 (V := flat) s.dev.mem 0x102 ≠ some (count + 1)

theorem hung_step (s : Machine flat echoPeer) (a : Action flat) (h : Hung s) : Hung (s.step a) := by
  obtain ⟨hmode, hmem, count, hqueue, havail⟩ := h
  obtain ⟨d', out, hturn, hmem', hqueue', havail'⟩ := hangs_turn hmem hqueue havail
  have hstep : s.step a = { s with dev := d', produced := s.produced ++ out, consumed := s.consume .txq } := by
    simp only [step, hmode, hturn]
  rw [hstep]
  exact ⟨hmode, hmem', count + 1, hqueue', havail'⟩

theorem step_notify {s : Machine V P} (hidle : s.mode = .idle) (hstatus : s.dev.status &&& S_DRIVER_OK ≠ 0) :
    s.step (.write R.QUEUE_NOTIFY (le 4 1)) = { s with mode := .processTx } := by
  simp only [step, hidle]
  rw [if_pos (by decide), writeReg, if_pos rfl, notify, if_neg hstatus]
  exact if_pos (by decide)

theorem hung_start : Hung (exec step (start (P := echoPeer) hangStart ()) hangRun) := by
  have hmissed : (exec step (start (P := echoPeer) hangStart ()) missedRun).mode = .idle ∧
      (exec step (start (P := echoPeer) hangStart ()) missedRun).dev.status &&& S_DRIVER_OK ≠ 0 ∧
      (exec step (start (P := echoPeer) hangStart ()) missedRun).dev.queues .txq = hangQueue 0 := by decide
  rw [hangRun, exec_append]
  generalize exec step (start (P := echoPeer) hangStart ()) missedRun = s at hmissed
  obtain ⟨hidle, hstatus, hqueue⟩ := hmissed
  have hread : readU16 (V := flat) hangMem 0x102 ≠ some (0 + 1) := by decide
  have hwrite : s.step (.memory hangMem) = { s with dev := { s.dev with mem := hangMem } } := by
    simp only [step, hidle]
  have hnotify := step_notify (V := flat) (P := echoPeer) (s := { s with dev := { s.dev with mem := hangMem } })
    hidle hstatus
  rw [exec_cons, exec_cons, exec_nil, hwrite]
  exact hnotify.symm ▸ ⟨rfl, ⟨rfl, fun _ _ _ => rfl⟩, 0, hqueue, hread⟩

/-- With both rings at one address and one entry not published, the loop never ends. -/
theorem overlaid_rings_hang : ¬∃ k, (exec step (start (P := echoPeer) hangStart ())
    (hangRun ++ List.replicate k .tick)).mode = .idle := by
  rintro ⟨k, hk⟩
  rw [exec_append] at hk
  have hung : Hung _ := exec_inv hung_step (List.replicate k .tick) hung_start
  rw [hung.mode] at hk
  cases hk

end Machine

end Yuva.Vmm
