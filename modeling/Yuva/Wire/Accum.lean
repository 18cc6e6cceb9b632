/-
# `Yuva.Wire.Accum` — re-framing a byte stream

`FrameAccum` of `tb-encode/src/inferwire.rs`.  A byte stream keeps no message
boundaries, so the receiver pushes bytes one at a time into a bounded buffer; the
buffer drops its front as soon as a byte refutes it as a frame, and reports a
frame as soon as one is whole.

The look the loop of `scan` takes at the front of the buffer is a
`Resync.Framing` (`framing`), and `pump_eq` says that the receive loop decodes
exactly the frames that look cuts out of the whole stream.
-/
import Yuva.Lib.Resync
import Yuva.Wire.Frame

namespace Yuva.Wire

open Yuva.Bytes
open Yuva.Resync

def INFER_ACCUM_CAP : Nat := INFER_HEADER_LEN + INFER_PAYLOAD_CAP

/-- `(INFER_MAGIC & 0xFF) as u8` and `(INFER_MAGIC >> 8) as u8`. -/
def MAGIC_LO : UInt8 := 0x58
def MAGIC_HI : UInt8 := 0x59

/-! ## The accumulator -/

/-- The live bytes `buf[..len]` of the accumulator. -/
structure FrameAccum (cap : Nat) where
  bytes : List UInt8

/-- What one pass of the loop of `scan` decides about the front of the buffer. -/
inductive Pass where
  | resync
  | slip
  | wait
  | emit (total : Nat)
deriving DecidableEq, Repr

/-- The byte at `i` is there, and it is bad. -/
def arrivedBad (buf : List UInt8) (i : Nat) (bad : UInt8 → Bool) : Bool := buf[i]?.any bad

/-- The checks of one pass, in the source's order. -/
def pass (buf : List UInt8) : Pass :=
  if arrivedBad buf 0 (· != MAGIC_LO) then .resync
  else if arrivedBad buf 1 (· != MAGIC_HI) then .slip
  else if arrivedBad buf OFF_VER (· != INFER_VER) then .slip
  else if arrivedBad buf OFF_KIND (fun k => !kindKnown k) then .slip
  else if arrivedBad buf OFF_FLAGS (· != 0) then .slip
  else if buf.length < INFER_HEADER_LEN then .wait
  else if frameIsEncodable (payloadLen buf) = false then .slip
  else if buf.length < INFER_HEADER_LEN + payloadLen buf then .wait
  else .emit (INFER_HEADER_LEN + payloadLen buf)

/-- The buffer from the next first magic byte, the front being known bad. -/
def resyncToMagic (buf : List UInt8) : List UInt8 := buf.tail.dropWhile (· != MAGIC_LO)

theorem length_resyncToMagic_le (buf : List UInt8) :
    (resyncToMagic buf).length ≤ buf.length - 1 := by
  have h := (List.dropWhile_sublist (· != MAGIC_LO) (l := buf.tail)).length_le
  rwa [List.length_tail] at h

/-- Drop fronts until one is plausible; the length of a whole frame, if there is one. -/
def scan (buf : List UInt8) : List UInt8 × Option Nat :=
  match buf with
  | [] => ([], none)
  | b :: rest =>
      match pass (b :: rest) with
      | .resync => scan (resyncToMagic (b :: rest))
      | .slip => scan rest
      | .wait => (b :: rest, none)
      | .emit total => (b :: rest, some total)
termination_by buf.length
decreasing_by
  · have h := length_resyncToMagic_le (b :: rest)
    rw [List.length_cons] at h ⊢
    omega
  · exact Nat.lt_succ_self _

namespace FrameAccum

variable {cap : Nat}

def new : FrameAccum cap := ⟨[]⟩

def len (acc : FrameAccum cap) : Nat := acc.bytes.length

/-- Drop the front `n` bytes, all of them if there are fewer. -/
def consume (acc : FrameAccum cap) (n : Nat) : FrameAccum cap := ⟨acc.bytes.drop n⟩

/-- Append one byte and scan.  `none` is the panic of the store `buf[len] = b`
past the end of the array. -/
def pushByte (acc : FrameAccum cap) (b : UInt8) : Option (FrameAccum cap × Option Nat) :=
  let acc := if acc.len = cap then acc.consume 1 else acc
  if acc.len < cap then
    let r := scan (acc.bytes ++ [b])
    some (⟨r.1⟩, r.2)
  else none

/-- The receive loop: push, and at a whole frame decode it and consume it. -/
def pump (acc : FrameAccum cap) : List UInt8 → Option (FrameAccum cap × List (Option InferFrame))
  | [] => some (acc, [])
  | b :: s =>
      match acc.pushByte b with
      | none => none
      | some (acc', none) => pump acc' s
      | some (acc', some n) =>
          (pump (acc'.consume n) s).map fun r => (r.1, decode (acc'.bytes.take n) :: r.2)

end FrameAccum

/-! ## The look at the front -/

/-- One of the five fixed header bytes is there and wrong. -/
def badFront (buf : List UInt8) : Bool :=
  arrivedBad buf 0 (· != MAGIC_LO) || arrivedBad buf 1 (· != MAGIC_HI) ||
    arrivedBad buf OFF_VER (· != INFER_VER) || arrivedBad buf OFF_KIND (fun k => !kindKnown k) ||
    arrivedBad buf OFF_FLAGS (· != 0)

/-- Both ways of dropping the front refute it. -/
def look (buf : List UInt8) : Look :=
  match pass buf with
  | .resync => .refuted
  | .slip => .refuted
  | .wait => .pending
  | .emit total => .whole total

theorem look_eq (buf : List UInt8) : look buf =
    if badFront buf then .refuted
    else if buf.length < INFER_HEADER_LEN then .pending
    else if frameIsEncodable (payloadLen buf) = false then .refuted
    else if buf.length < INFER_HEADER_LEN + payloadLen buf then .pending
    else .whole (INFER_HEADER_LEN + payloadLen buf) := by
  unfold look pass badFront
  cases arrivedBad buf 0 (· != MAGIC_LO) with
  | true => rfl
  | false =>
      cases arrivedBad buf 1 (· != MAGIC_HI) with
      | true => rfl
      | false =>
          cases arrivedBad buf OFF_VER (· != INFER_VER) with
          | true => rfl
          | false =>
              cases arrivedBad buf OFF_KIND (fun k => !kindKnown k) with
              | true => rfl
              | false =>
                  cases arrivedBad buf OFF_FLAGS (· != 0) with
                  | true => rfl
                  | false =>
                      simp only [Bool.or_self, Bool.false_eq_true, if_false]
                      split_ifs <;> rfl

theorem look_refuted_iff {buf : List UInt8} : look buf = .refuted ↔
    badFront buf = true ∨ INFER_HEADER_LEN ≤ buf.length ∧ INFER_PAYLOAD_CAP < payloadLen buf := by
  rw [look_eq]
  split_ifs <;> simp_all [frameIsEncodable]

theorem look_pending_iff {buf : List UInt8} : look buf = .pending ↔
    badFront buf = false ∧ (buf.length < INFER_HEADER_LEN ∨ payloadLen buf ≤ INFER_PAYLOAD_CAP ∧
      buf.length < INFER_HEADER_LEN + payloadLen buf) := by
  rw [look_eq]
  split_ifs <;> simp_all [frameIsEncodable]

theorem look_whole_iff {buf : List UInt8} {n : Nat} : look buf = .whole n ↔
    badFront buf = false ∧ INFER_HEADER_LEN ≤ buf.length ∧ payloadLen buf ≤ INFER_PAYLOAD_CAP ∧
      n = INFER_HEADER_LEN + payloadLen buf ∧ n ≤ buf.length := by
  rw [look_eq]
  split_ifs <;> simp_all [frameIsEncodable]
  rename_i hfull
  constructor
  · rintro rfl
    exact ⟨rfl, hfull⟩
  · rintro ⟨rfl, -⟩
    rfl

/-! ## Bytes that arrive later -/

theorem arrivedBad_append {buf : List UInt8} (s : List UInt8) {i : Nat} {bad : UInt8 → Bool}
    (h : arrivedBad buf i bad = true) : arrivedBad (buf ++ s) i bad = true := by
  unfold arrivedBad at h ⊢
  cases hi : buf[i]? with
  | none => rw [hi] at h; cases h
  | some b =>
      rw [List.getElem?_append_left (List.getElem?_eq_some_iff.mp hi).1]
      exact h

theorem arrivedBad_append_of_lt {buf : List UInt8} (s : List UInt8) {i : Nat} {bad : UInt8 → Bool}
    (h : i < buf.length) : arrivedBad (buf ++ s) i bad = arrivedBad buf i bad := by
  rw [arrivedBad, arrivedBad, List.getElem?_append_left h]

theorem badFront_append {buf : List UInt8} (s : List UInt8) (h : badFront buf = true) :
    badFront (buf ++ s) = true := by
  simp only [badFront, Bool.or_eq_true] at h ⊢
  rcases h with (((h | h) | h) | h) | h
  · exact .inl (.inl (.inl (.inl (arrivedBad_append s h))))
  · exact .inl (.inl (.inl (.inr (arrivedBad_append s h))))
  · exact .inl (.inl (.inr (arrivedBad_append s h)))
  · exact .inl (.inr (arrivedBad_append s h))
  · exact .inr (arrivedBad_append s h)

section header

variable {buf : List UInt8} (s : List UInt8) (h : INFER_HEADER_LEN ≤ buf.length)
include h

/-- Once the header is there, nothing behind it changes a check. -/
theorem badFront_append_of_header : badFront (buf ++ s) = badFront buf := by
  have hlt : ∀ {i}, i < INFER_HEADER_LEN → i < buf.length := fun hi => Nat.lt_of_lt_of_le hi h
  simp only [badFront]
  rw [arrivedBad_append_of_lt s (hlt (by decide)), arrivedBad_append_of_lt s (hlt (by decide)),
    arrivedBad_append_of_lt s (hlt (by decide)), arrivedBad_append_of_lt s (hlt (by decide)),
    arrivedBad_append_of_lt s (hlt (by decide))]

theorem payloadLen_append : payloadLen (buf ++ s) = payloadLen buf := by
  rw [payloadLen, payloadLen, slice_append s (Nat.le_trans (by decide) h)]

end header

theorem look_refuted_append {buf : List UInt8} (s : List UInt8) (h : look buf = .refuted) :
    look (buf ++ s) = .refuted := by
  rcases look_refuted_iff.mp h with hbad | ⟨hlen, hcap⟩
  · exact look_refuted_iff.mpr (.inl (badFront_append s hbad))
  · refine look_refuted_iff.mpr (.inr ⟨?_, by rwa [payloadLen_append s hlen]⟩)
    rw [List.length_append]
    omega

theorem look_whole_append {buf : List UInt8} {n : Nat} (s : List UInt8) (h : look buf = .whole n) :
    look (buf ++ s) = .whole n := by
  obtain ⟨hgood, hlen, hcap, rfl, hfull⟩ := look_whole_iff.mp h
  refine look_whole_iff.mpr ⟨by rwa [badFront_append_of_header s hlen], ?_,
    by rwa [payloadLen_append s hlen], by rw [payloadLen_append s hlen], ?_⟩
  · rw [List.length_append]
    omega
  · rw [List.length_append]
    omega

theorem look_whole_exact {buf : List UInt8} {x : UInt8} {n : Nat} (h : look buf = .pending)
    (hw : look (buf ++ [x]) = .whole n) : n = buf.length + 1 := by
  obtain ⟨-, hwait⟩ := look_pending_iff.mp h
  obtain ⟨-, -, -, hn, hfull⟩ := look_whole_iff.mp hw
  rw [List.length_append, List.length_singleton] at hfull
  rcases hwait with hshort | ⟨-, hopen⟩
  · omega
  · by_cases hlen : INFER_HEADER_LEN ≤ buf.length
    · rw [payloadLen_append [x] hlen] at hn
      omega
    · omega

theorem look_refuted_early {buf : List UInt8} {x : UInt8} (h : look buf = .pending)
    (hr : look (buf ++ [x]) = .refuted) : buf.length < INFER_HEADER_LEN := by
  obtain ⟨hgood, hwait⟩ := look_pending_iff.mp h
  refine Nat.lt_of_not_le fun hlen => ?_
  rcases look_refuted_iff.mp hr with hbad | ⟨-, hcap⟩
  · rw [badFront_append_of_header [x] hlen, hgood] at hbad
    cases hbad
  · rw [payloadLen_append [x] hlen] at hcap
    omega

theorem look_pending_lt {buf : List UInt8} (h : look buf = .pending) :
    buf.length < INFER_ACCUM_CAP := by
  obtain ⟨-, hwait⟩ := look_pending_iff.mp h
  rw [INFER_ACCUM_CAP]
  omega

/-- The look of `scan` cuts frames. -/
def framing : Framing UInt8 where
  look := look
  shortest := INFER_HEADER_LEN
  longest := INFER_ACCUM_CAP
  shortest_pos := by decide
  look_nil := by decide
  refuted_append := look_refuted_append
  whole_append := look_whole_append
  whole_bounds := fun h => by
    obtain ⟨-, -, -, rfl, hfull⟩ := look_whole_iff.mp h
    exact ⟨Nat.le_add_right _ _, hfull⟩
  whole_exact := look_whole_exact
  refuted_early := look_refuted_early
  pending_lt := look_pending_lt

/-! ## The receive loop -/

theorem look_of_not_magic {b : UInt8} (s : List UInt8) (h : (b != MAGIC_LO) = true) :
    look (b :: s) = .refuted :=
  look_refuted_iff.mpr (.inl (by simp [badFront, arrivedBad, h]))

theorem align_dropWhile (s : List UInt8) :
    framing.align (s.dropWhile (· != MAGIC_LO)) = framing.align s := by
  induction s with
  | nil => rfl
  | cons b s ih =>
      cases h : b != MAGIC_LO with
      | true =>
          simp only [List.dropWhile_cons, h, if_true, ih]
          exact (framing.align_refuted (look_of_not_magic s h)).symm
      | false => simp only [List.dropWhile_cons, h, Bool.false_eq_true, if_false]

/-- The loop drops exactly the refuted fronts. -/
theorem scan_eq (buf : List UInt8) :
    scan buf = (framing.align buf, framing.ready (framing.align buf)) := by
  fun_induction scan buf with
  | case1 => rfl
  | case2 b rest h ih =>
      have hr : framing.look (b :: rest) = .refuted := by
        simp only [framing, look, h]
      rw [ih, resyncToMagic, List.tail_cons, align_dropWhile, framing.align_refuted hr]
  | case3 b rest h ih =>
      have hr : framing.look (b :: rest) = .refuted := by
        simp only [framing, look, h]
      rw [ih, framing.align_refuted hr]
  | case4 b rest h =>
      have hp : framing.look (b :: rest) = .pending := by
        simp only [framing, look, h]
      rw [framing.align_of_ne (by rw [hp]; exact Look.noConfusion), Framing.ready, hp]
  | case5 b rest n h =>
      have hw : framing.look (b :: rest) = .whole n := by
        simp only [framing, look, h]
      rw [framing.align_of_ne (by rw [hw]; exact Look.noConfusion), Framing.ready, hw]

namespace FrameAccum

variable {cap : Nat}

/-- With room for the longest frame, an open candidate never fills the buffer. -/
theorem pushByte_eq (hcap : INFER_ACCUM_CAP ≤ cap) {acc : FrameAccum cap} (b : UInt8)
    (h : framing.look acc.bytes = .pending) :
    acc.pushByte b = some (⟨(framing.feed acc.bytes b).1⟩, (framing.feed acc.bytes b).2) := by
  have hlt : acc.len < cap := Nat.lt_of_lt_of_le (look_pending_lt h) hcap
  simp only [pushByte, if_neg (Nat.ne_of_lt hlt), if_pos hlt, scan_eq, Framing.feed]

theorem pump_eq (hcap : INFER_ACCUM_CAP ≤ cap) (s : List UInt8) :
    ∀ {acc : FrameAccum cap}, framing.look acc.bytes = .pending →
      ∃ acc' : FrameAccum cap,
        acc.pump s = some (acc', (framing.frames (acc.bytes ++ s)).map decode) ∧
        framing.look acc'.bytes = .pending := by
  induction s with
  | nil =>
      intro acc h
      refine ⟨acc, ?_, h⟩
      rw [pump, List.append_nil, framing.frames_pending h, List.map_nil]
  | cons b s ih =>
      intro acc h
      have hpush := pushByte_eq hcap b h
      rcases hf : framing.feed acc.bytes b with ⟨buf, _ | n⟩
      · obtain ⟨hopen, hframes⟩ := framing.feed_pending s h hf
        obtain ⟨acc', hacc', hp⟩ := @ih ⟨buf⟩ hopen
        refine ⟨acc', ?_, hp⟩
        rw [hf] at hpush
        rw [pump, hpush, hframes]
        exact hacc'
      · obtain ⟨-, hn, hframes⟩ := framing.feed_whole s h hf
        -- the frame is the whole buffer, so the loop goes on from an empty one
        obtain ⟨acc', hacc', hp⟩ := @ih new framing.look_nil
        have hempty : consume (⟨buf⟩ : FrameAccum cap) buf.length = new := by
          rw [consume, List.drop_length, new]
        subst hn
        refine ⟨acc', ?_, hp⟩
        rw [hf] at hpush
        simp only [pump, hpush, hempty, hacc', hframes, List.take_length, List.map_cons,
          Option.map_some]
        rfl

end FrameAccum

end Yuva.Wire
