/-
# `Yuva.Ipc.Ring` — the two ring buffers

    `tb-encode/src/ipc_frame.rs`   `BoundedRing`, which rejects a push when it is full
    `tb-encode/src/exp.rs`         `ExpRing`, which drops its oldest row

with the index arithmetic of the source: the sum of head and offset is a word that wraps, the
remainder by a capacity of zero and an index past the end are panics, `none` here.

**Proved here.**  Over every list of calls `BoundedRing` answers as the bounded queue
`Ring.accept` does and `ExpRing` as `keepLast`, the queue that drops its oldest element, for
every capacity (`rings_refine_queues`).  An array that fits in memory has fewer than `2 ^ 63`
bytes, so the sum cannot wrap; only an element type without bytes has longer arrays, and there
one element is like another.
-/
import Yuva.Lib.Checked
import Yuva.Lib.Machine
import Yuva.Lib.Ring
import Yuva.Mem.Ledger

namespace Yuva.Ipc

open Yuva.Bytes Yuva.Checked Yuva.Machine Yuva.Ring Yuva.Run
open Yuva.Mem.Exp (ExpRing)

variable {T : Type} {N : Nat}

/-- `buf[i] = v`. -/
def storeSlot (buf : Vector T N) (i : Nat) (v : T) : Option (Vector T N) :=
  if i < N then some (buf.setIfInBounds i v) else none

/-! ## Reject on full -/

structure BoundedRing (T : Type) (N : Nat) where
  buf : Vector T N
  head : Nat
  len : Nat

namespace BoundedRing

def new [Inhabited T] : BoundedRing T N := ⟨Vector.replicate N default, 0, 0⟩

def push (q : BoundedRing T N) (v : T) : Option (Bool × BoundedRing T N) :=
  if q.len = N then some (false, q)
  else do
    let tail ← modWord (wrapU 64 (q.head + q.len)) N
    let buf ← storeSlot q.buf tail v
    return (true, { q with buf := buf, len := q.len + 1 })

def pop (q : BoundedRing T N) : Option (Option T × BoundedRing T N) :=
  if q.len = 0 then some (none, q)
  else do
    let v ← q.buf[q.head]?
    let head ← modWord (wrapU 64 (q.head + 1)) N
    return (some v, { q with head := head, len := q.len - 1 })

def call (q : BoundedRing T N) : Move T → Option (Answer T × BoundedRing T N)
  | .push v => (q.push v).map fun r => (.pushed r.1, r.2)
  | .pop => q.pop.map fun r => (.popped r.1, r.2)

end BoundedRing

/-! ## Drop the oldest -/

/-- `push` of `ExpRing`: whether a row was dropped, and the ring. -/
def pushRow {CAP LEN : Nat} (q : ExpRing CAP LEN) (row : Block LEN) : Option (Bool × ExpRing CAP LEN) :=
  if CAP = 0 then some (false, q)
  else if q.len < CAP then do
    let slot ← modWord (wrapU 64 (q.head + q.len)) CAP
    let rows ← storeSlot q.rows slot row
    return (false, { q with rows := rows, len := q.len + 1 })
  else do
    let rows ← storeSlot q.rows q.head row
    let head ← modWord (wrapU 64 (q.head + 1)) CAP
    return (true, { q with rows := rows, head := head })

/-- `get` of `ExpRing`. -/
def getRow {CAP LEN : Nat} (q : ExpRing CAP LEN) (i : Nat) : Option (Option (Block LEN)) :=
  if i ≥ q.len ∨ CAP = 0 then some none
  else do
    let slot ← modWord (wrapU 64 (q.head + i)) CAP
    let row ← q.rows[slot]?
    return some row

inductive RowCall (LEN : Nat) where
  | push (row : Block LEN)
  | get (i : Nat)

inductive RowAnswer (LEN : Nat) where
  | pushed (dropped : Bool)
  | got (row : Option (Block LEN))

def callRows {CAP LEN : Nat} (q : ExpRing CAP LEN) : RowCall LEN → Option (RowAnswer LEN × ExpRing CAP LEN)
  | .push row => (pushRow q row).map fun r => (.pushed r.1, r.2)
  | .get i => (getRow q i).map fun r => (.got r, q)

/-- What the ring is for: the last `cap` of the rows pushed. -/
def keepLast {LEN : Nat} (cap : Nat) (pushed : List (Block LEN)) : RowCall LEN → RowAnswer LEN × List (Block LEN)
  | .push row => (.pushed (decide (0 < cap ∧ cap ≤ pushed.length)), pushed ++ [row])
  | .get i => (.got (pushed.drop (pushed.length - cap))[i]?, pushed)

def rowsPushed {LEN : Nat} : List (RowCall LEN) → List (Block LEN)
  | .push row :: cs => row :: rowsPushed cs
  | .get _ :: cs => rowsPushed cs
  | [] => []

/-! ## The words -/

/-- The rule of the language for an array of `N` elements: it has fewer than `2 ^ 63` bytes, so
fewer than `2 ^ 63` elements unless these have no bytes, and then they are all the same. -/
def Sized (T : Type) (N : Nat) : Prop := N < 2 ^ 63 ∨ N < 2 ^ 64 ∧ Subsingleton T

theorem Sized.word (h : Sized T N) : N < 2 ^ 64 := by
  rcases h with hlt | ⟨hlt, -⟩
  · omega
  · exact hlt

theorem sized_rows {CAP LEN : Nat} (hword : CAP < 2 ^ 64) (h : LEN * CAP < 2 ^ 63) : Sized (Block LEN) CAP := by
  cases LEN with
  | zero =>
      refine .inr ⟨hword, ⟨fun a b => Subtype.ext ?_⟩⟩
      rw [List.length_eq_zero_iff.mp a.property, List.length_eq_zero_iff.mp b.property]
  | succ k => exact .inl (Nat.lt_of_le_of_lt (Nat.le_mul_of_pos_left CAP (Nat.succ_pos k)) h)

theorem next_wrap {head : Nat} (hT : Sized T N) (hhead : head < N) :
    modWord (wrapU 64 (head + 1)) N = some ((head + 1) % N) := by
  have hword := hT.word
  rw [modWord_eq (Nat.zero_lt_of_lt hhead), wrapU_of_lt (by omega)]

theorem storeSlot_wrap {buf : Vector T N} {head i : Nat} (hT : Sized T N) (hhead : head < N) (hi : i ≤ N) (v : T) :
    storeSlot buf (wrapU 64 (head + i) % N) v = some (buf.setIfInBounds ((head + i) % N) v) := by
  rw [storeSlot, if_pos (Nat.mod_lt _ (Nat.zero_lt_of_lt hhead))]
  rcases hT with hlt | ⟨-, hsub⟩
  · rw [wrapU_of_lt (by omega)]
  · exact congrArg some (Vector.ext fun j hj => Subsingleton.elim _ _)

theorem slot_wrap {buf : Vector T N} {head i : Nat} (hT : Sized T N) (hhead : head < N) (hi : i ≤ N) :
    buf[wrapU 64 (head + i) % N]? = buf[(head + i) % N]? := by
  have hpos : 0 < N := Nat.zero_lt_of_lt hhead
  rcases hT with hlt | ⟨-, hsub⟩
  · rw [wrapU_of_lt (by omega)]
  · rw [Vector.getElem?_eq_getElem (Nat.mod_lt _ hpos), Vector.getElem?_eq_getElem (Nat.mod_lt _ hpos)]
    exact congrArg some (Subsingleton.elim _ _)

/-! ## The bounded ring is a bounded queue -/

namespace BoundedRing

/-- The ring holds these elements, oldest first. -/
structure Queue (q : BoundedRing T N) (xs : List T) : Prop where
  holds : Holds q.buf q.head q.len xs
  head : q.head < N ∨ N = 0 ∧ q.head = 0

theorem queue_new [Inhabited T] : Queue (new : BoundedRing T N) [] where
  holds := .empty _ 0
  head := (Nat.eq_zero_or_pos N).symm.imp_right fun hzero => ⟨hzero, rfl⟩

theorem queue_call {q : BoundedRing T N} {xs : List T} (hT : Sized T N) (h : Queue q xs) (c : Move T) :
    ∃ q', q.call c = some ((accept N xs c).1, q') ∧ Queue q' (accept N xs c).2 := by
  have hcount := h.holds.count
  have hfits := h.holds.fits
  cases c with
  | push v =>
      by_cases hfull : q.len = N
      · refine ⟨q, ?_, ?_⟩
        · rw [call, push, if_pos hfull, accept, if_neg (by omega)]
          rfl
        · rwa [accept, if_neg (by omega)]
      · have hhead : q.head < N := h.head.resolve_right (by omega)
        refine ⟨⟨q.buf.setIfInBounds ((q.head + q.len) % N) v, q.head, q.len + 1⟩, ?_, ?_⟩
        · rw [call, push, if_neg hfull, modWord_eq (by omega), accept, if_pos (by omega)]
          show ((storeSlot q.buf (wrapU 64 (q.head + q.len) % N) v >>= _).map _) = _
          rw [storeSlot_wrap hT hhead hfits]
          rfl
        · rw [accept, if_pos (by omega)]
          exact ⟨h.holds.push (by omega) v, .inl hhead⟩
  | pop =>
      by_cases hempty : q.len = 0
      · have hnil : xs = [] := List.length_eq_zero_iff.mp (by omega)
        refine ⟨q, ?_, ?_⟩
        · rw [call, pop, if_pos hempty, hnil]
          rfl
        · rw [hnil] at h ⊢
          exact h
      · have hhead : q.head < N := h.head.resolve_right (by omega)
        obtain ⟨x, hx⟩ : ∃ x, xs.head? = some x := by
          cases xs with
          | nil => exact absurd hcount hempty
          | cons x xs => exact ⟨x, rfl⟩
        refine ⟨⟨q.buf, (q.head + 1) % N, q.len - 1⟩, ?_, ?_⟩
        · rw [call, pop, if_neg hempty, h.holds.front hhead (Nat.pos_of_ne_zero hempty), hx, next_wrap hT hhead, accept,
            hx]
          rfl
        · exact ⟨h.holds.pop, .inl (Nat.mod_lt _ (Nat.zero_lt_of_lt hhead))⟩

theorem push_rejected {q q' : BoundedRing T N} {v : T} (h : q.push v = some (false, q')) : q' = q := by
  rw [push] at h
  split at h
  case isTrue =>
    cases h
    rfl
  case isFalse =>
    cases htail : modWord (wrapU 64 (q.head + q.len)) N with
    | none => simp [htail] at h
    | some tail => cases hbuf : storeSlot q.buf tail v <;> simp [htail, hbuf] at h

end BoundedRing

/-! ## The drop-oldest ring is the queue of the last rows -/

section

variable {CAP LEN : Nat}

/-- The ring holds the last rows of those pushed. -/
structure Window (q : ExpRing CAP LEN) (pushed : List (Block LEN)) : Prop where
  holds : Holds q.rows q.head q.len (pushed.drop (pushed.length - CAP))
  head : q.head < CAP ∨ CAP = 0 ∧ q.head = 0

theorem window_new : Window (ExpRing.new : ExpRing CAP LEN) [] where
  holds := by
    rw [List.drop_nil]
    exact .empty _ 0
  head := (Nat.eq_zero_or_pos CAP).symm.imp_right fun hzero => ⟨hzero, rfl⟩

theorem window_call {q : ExpRing CAP LEN} {pushed : List (Block LEN)} (hT : Sized (Block LEN) CAP)
    (h : Window q pushed) (c : RowCall LEN) :
    ∃ q', callRows q c = some ((keepLast CAP pushed c).1, q') ∧ Window q' (keepLast CAP pushed c).2 := by
  have hcount := h.holds.count
  have hfits := h.holds.fits
  rw [List.length_drop] at hcount
  cases c with
  | push row =>
      rw [keepLast]
      rcases Nat.eq_zero_or_pos CAP with hzero | hpos
      · refine ⟨q, ?_, ?_, h.head⟩
        · rw [callRows, pushRow, if_pos hzero, decide_eq_false (by omega)]
          rfl
        · have hlen : q.len = 0 := by omega
          rw [List.drop_of_length_le (by omega), hlen]
          exact .empty _ _
      have hhead : q.head < CAP := h.head.resolve_right (by omega)
      by_cases hfull : q.len < CAP
      · refine ⟨⟨q.rows.setIfInBounds ((q.head + q.len) % CAP) row, q.head, q.len + 1⟩, ?_,
          h.holds.push_newest hfull row, .inl hhead⟩
        rw [callRows, pushRow, if_neg (by omega), if_pos hfull, modWord_eq hpos, decide_eq_false (by omega)]
        show ((storeSlot q.rows (wrapU 64 (q.head + q.len) % CAP) row >>= _).map _) = _
        rw [storeSlot_wrap hT hhead hfits]
        rfl
      · have hcap : q.len = CAP := by omega
        refine ⟨⟨q.rows.setIfInBounds q.head row, (q.head + 1) % CAP, q.len⟩, ?_,
          h.holds.shift_newest hcap hhead row, .inl (Nat.mod_lt _ hpos)⟩
        rw [callRows, pushRow, if_neg (by omega), if_neg hfull, storeSlot, if_pos hhead, next_wrap hT hhead,
          decide_eq_true (by omega)]
        rfl
  | get i =>
      refine ⟨q, ?_, h⟩
      rw [callRows, getRow, keepLast]
      by_cases hi : i < q.len
      · have hhead : q.head < CAP := h.head.resolve_right (by omega)
        have hget := h.holds.get hi
        rw [if_neg (by omega), modWord_eq (by omega)]
        show ((q.rows[wrapU 64 (q.head + i) % CAP]? >>= _).map _) = _
        rw [slot_wrap hT hhead (by omega), hget,
          List.getElem?_eq_getElem (by rw [← h.holds.count]; exact hi)]
        rfl
      · rw [if_pos (by omega), List.getElem?_eq_none (by rw [← h.holds.count]; omega)]
        rfl

end

theorem answers_keepLast {LEN : Nat} (cap : Nat) (cs : List (RowCall LEN)) (pushed : List (Block LEN)) :
    (answers (keepLast cap) pushed cs).2 = pushed ++ rowsPushed cs := by
  induction cs generalizing pushed with
  | nil => exact (List.append_nil pushed).symm
  | cons c cs ih =>
      cases c with
      | push row => simp [answers, keepLast, rowsPushed, ih]
      | get i => simp [answers, keepLast, rowsPushed, ih]

/-- Over every list of calls both rings are queues of bounded length: the one takes nothing in
when it is full, the other keeps the last rows, oldest first. -/
theorem rings_refine_queues :
    (∀ {T : Type} [Inhabited T] {N : Nat}, Sized T N → ∀ cs : List (Move T),
      ∃ q, converse BoundedRing.call (BoundedRing.new : BoundedRing T N) cs = some ((answers (accept N) [] cs).1, q) ∧
        q.len = (answers (accept N) [] cs).2.length ∧ q.len ≤ N ∧ (N < 2 ^ 63 → q.head + q.len < 2 ^ 64) ∧
        takenIn cs (answers (accept N) [] cs).1 =
          givenOut (answers (accept N) [] cs).1 ++ (answers (accept N) [] cs).2) ∧
    (∀ {T : Type} {N : Nat} {q q' : BoundedRing T N} {v : T}, q.push v = some (false, q') → q' = q) ∧
    (∀ {CAP LEN : Nat}, CAP < 2 ^ 64 → LEN * CAP < 2 ^ 63 → ∀ cs : List (RowCall LEN),
      ∃ q, converse callRows (ExpRing.new : ExpRing CAP LEN) cs = some ((answers (keepLast CAP) [] cs).1, q) ∧
        q.len = min (rowsPushed cs).length CAP ∧ (CAP < 2 ^ 63 → q.head + q.len < 2 ^ 64) ∧
        ∀ i, getRow q i = some ((rowsPushed cs).drop ((rowsPushed cs).length - CAP))[i]?) := by
  refine ⟨?_, BoundedRing.push_rejected, ?_⟩
  · intro T _ N hT cs
    obtain ⟨q, hrun, hq⟩ := converse_refines (R := BoundedRing.Queue)
      (fun q xs c h => BoundedRing.queue_call hT h c) cs BoundedRing.queue_new
    have hfits := hq.holds.fits
    have hhead := hq.head
    refine ⟨q, hrun, hq.holds.count, hfits, ?_, ?_⟩
    · intro hlt
      omega
    · exact taken_eq N cs []
  · intro CAP LEN hword hbytes cs
    obtain ⟨q, hrun, hq⟩ := converse_refines (R := Window)
      (fun q pushed c h => window_call (sized_rows hword hbytes) h c) cs window_new
    have hpushed : (answers (keepLast CAP) [] cs).2 = rowsPushed cs := answers_keepLast CAP cs []
    have hcount := hq.holds.count
    have hhead := hq.head
    rw [hpushed, List.length_drop] at hcount
    refine ⟨q, hrun, by omega, ?_, ?_⟩
    · intro hlt
      omega
    · intro i
      obtain ⟨q', hget, -⟩ := window_call (sized_rows hword hbytes) hq (.get i)
      cases hrow : getRow q i with
      | none =>
          rw [callRows, hrow] at hget
          cases hget
      | some row =>
          rw [callRows, hrow, keepLast, hpushed] at hget
          cases hget
          rfl

/-- A ring of two rejects the third element and takes the next one behind its end, in the slot of
the first; one that drops its oldest has wrapped twice. -/
theorem rings_wrapped :
    (∃ q, converse BoundedRing.call (BoundedRing.new : BoundedRing Nat 2)
        [.push 5, .push 6, .push 7, .pop, .push 8, .pop, .push 9] = some ([.pushed true, .pushed true, .pushed false,
          .popped (some 5), .pushed true, .popped (some 6), .pushed true], q) ∧
      q.len = 2 ∧ q.len ≤ 2 ∧ ((2 : Nat) < 2 ^ 63 → q.head + q.len < 2 ^ 64) ∧ [5, 6, 8, 9] = [5, 6] ++ [8, 9]) ∧
    (BoundedRing.mk #v[8, 6] 1 2).push 7 = some (false, BoundedRing.mk #v[8, 6] 1 2) ∧
    ∃ q, converse callRows (ExpRing.new : ExpRing 2 1)
        [.push ⟨[1], rfl⟩, .push ⟨[2], rfl⟩, .get 0, .push ⟨[3], rfl⟩, .push ⟨[4], rfl⟩, .push ⟨[5], rfl⟩, .get 2] =
          some ([.pushed false, .pushed false, .got (some ⟨[1], rfl⟩), .pushed true, .pushed true, .pushed true,
            .got none], q) ∧
      q.len = 2 ∧ ((2 : Nat) < 2 ^ 63 → q.head + q.len < 2 ^ 64) ∧
      ∀ i, getRow q i = some (([⟨[4], rfl⟩, ⟨[5], rfl⟩] : List (Block 1))[i]?) := by
  refine ⟨?_, ?_, ?_⟩
  · exact rings_refine_queues.1 (.inl (by decide)) [.push 5, .push 6, .push 7, .pop, .push 8, .pop, .push 9]
  · obtain ⟨q', hq'⟩ : ∃ q', (BoundedRing.mk #v[8, 6] 1 2).push 7 = some (false, q') := ⟨_, rfl⟩
    rw [hq', rings_refine_queues.2.1 hq']
  · exact rings_refine_queues.2.2 (by decide) (by decide) [.push ⟨[1], rfl⟩, .push ⟨[2], rfl⟩, .get 0,
      .push ⟨[3], rfl⟩, .push ⟨[4], rfl⟩, .push ⟨[5], rfl⟩, .get 2]

end Yuva.Ipc
