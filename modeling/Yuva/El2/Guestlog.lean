/-
# `Yuva.El2.Guestlog` — the guest's serial output on the host console

`tb-encode/src/guestlog.rs`, the codec of a `guestlog:` line, and the emitter of
`tb-hal/src/arch/aarch64/el2/l24b_guest.rs`, which collects the bytes a guest writes to its
serial port and puts them on the console a frame at a time: at a line feed, at 64 bytes, and
when the guest is torn down.

    "guestlog: " | two lowercase hex digits a byte | LF

The display gate of the console is raised on x86 only, so every byte of a frame is written.

**Proved here.**  A frame is one line and decodes to its payload (`guestlogDecode_frame`); a byte
pushed is in the buffer or in a frame (`Emitting.push`), and a flush empties the buffer
(`Emitting.flush`).  Which of the two an exit of the guest does is the monitor's: `Yuva.El2.Serial`.
-/
import Yuva.Lib.Bytes

namespace Yuva.El2

open Yuva.Bytes

/-- `"guestlog: "`. -/
def GUESTLOG_PREFIX : List UInt8 := [0x67, 0x75, 0x65, 0x73, 0x74, 0x6c, 0x6f, 0x67, 0x3a, 0x20]
def GUESTLOG_MAX_PAYLOAD : Nat := 64
def LF : UInt8 := 0x0a

def guestlogFrameLen (len : Nat) : Nat := GUESTLOG_PREFIX.length + 2 * len + 1

def GUESTLOG_MAX_FRAME : Nat := guestlogFrameLen GUESTLOG_MAX_PAYLOAD

/-! ## The codec -/

def hexDigit (n : UInt8) : UInt8 := if n < 10 then 0x30 + n else 0x61 + (n - 10)

def hexVal (c : UInt8) : Option UInt8 :=
  if 0x30 ≤ c ∧ c ≤ 0x39 then some (c - 0x30)
  else if 0x61 ≤ c ∧ c ≤ 0x66 then some (c - 0x61 + 10)
  else none

def isHexLower (b : UInt8) : Bool := (0x30 ≤ b && b ≤ 0x39) || (0x61 ≤ b && b ≤ 0x66)

/-- The two digits of a byte, high nibble first. -/
def hexByte (b : UInt8) : List UInt8 := [hexDigit (b >>> 4), hexDigit (b &&& 0xF)]

/-- A frame as the encoder lays it out. -/
def frame (payload : List UInt8) : List UInt8 := GUESTLOG_PREFIX ++ payload.flatMap hexByte ++ [LF]

/-- The number of bytes written, zero when nothing is, and the buffer after. -/
def guestlogEncode (payload out : List UInt8) : Nat × List UInt8 :=
  if payload.length > GUESTLOG_MAX_PAYLOAD then (0, out)
  else
    let total := guestlogFrameLen payload.length
    if out.length < total then (0, out) else (total, frame payload ++ out.drop total)

/-- Digit pairs, read until one is no hex. -/
def hexPairs : List UInt8 → Option (List UInt8)
  | hi :: lo :: rest => do
      let h ← hexVal hi
      let l ← hexVal lo
      let bytes ← hexPairs rest
      return ((h <<< 4) ||| l) :: bytes
  | _ => some []

/-- The payload of one line, terminator included; `room` is the size of the output. -/
def guestlogDecode (line : List UInt8) (room : Nat) : Option (List UInt8) :=
  let p := GUESTLOG_PREFIX.length
  if line.length < p + 1 ∨ line.take p ≠ GUESTLOG_PREFIX then none
  else if line.getLast? ≠ some LF then none
  else
    let hex := slice line p (line.length - 1 - p)
    if hex.length % 2 ≠ 0 then none
    else
      let n := hex.length / 2
      if n > GUESTLOG_MAX_PAYLOAD ∨ room < n then none else hexPairs hex

theorem forall_byte {P : UInt8 → Prop} [DecidablePred P] (h : ∀ x : Fin 256, P (UInt8.ofNat x)) (b : UInt8) :
    P b := by
  have hb := h ⟨b.toNat, b.toNat_lt⟩
  rwa [UInt8.ofNat_toNat] at hb

/-- Both digits of a byte are lowercase hex, and they give the byte back. -/
theorem hexByte_digits (b : UInt8) :
    isHexLower (hexDigit (b >>> 4)) = true ∧ isHexLower (hexDigit (b &&& 0xF)) = true ∧
      hexVal (hexDigit (b >>> 4)) = some (b >>> 4) ∧ hexVal (hexDigit (b &&& 0xF)) = some (b &&& 0xF) ∧
      ((b >>> 4) <<< 4 ||| (b &&& 0xF)) = b :=
  forall_byte (P := fun b => isHexLower (hexDigit (b >>> 4)) = true ∧
    isHexLower (hexDigit (b &&& 0xF)) = true ∧ hexVal (hexDigit (b >>> 4)) = some (b >>> 4) ∧
    hexVal (hexDigit (b &&& 0xF)) = some (b &&& 0xF) ∧ ((b >>> 4) <<< 4 ||| (b &&& 0xF)) = b) (by decide +kernel) b

theorem isHexLower_of_mem {payload : List UInt8} {c : UInt8} (h : c ∈ payload.flatMap hexByte) :
    isHexLower c = true := by
  obtain ⟨b, -, hc⟩ := List.mem_flatMap.mp h
  obtain ⟨hhi, hlo, -⟩ := hexByte_digits b
  simp only [hexByte, List.mem_cons, List.not_mem_nil, or_false] at hc
  rcases hc with rfl | rfl
  · exact hhi
  · exact hlo

theorem hexPairs_flatMap (payload : List UInt8) : hexPairs (payload.flatMap hexByte) = some payload := by
  induction payload with
  | nil => rfl
  | cons b payload ih =>
      obtain ⟨-, -, hhi, hlo, hb⟩ := hexByte_digits b
      simp [hexByte, hexPairs, hhi, hlo, hb, ih]

theorem length_flatMap_hexByte (payload : List UInt8) : (payload.flatMap hexByte).length = 2 * payload.length := by
  induction payload with
  | nil => rfl
  | cons b payload ih =>
      rw [List.flatMap_cons, List.length_append, ih, List.length_cons]
      simp only [hexByte, List.length_cons, List.length_nil]
      omega

theorem length_frame (payload : List UInt8) : (frame payload).length = guestlogFrameLen payload.length := by
  rw [frame, List.length_append, List.length_append, length_flatMap_hexByte]
  rfl

/-- A frame decodes to its payload. -/
theorem guestlogDecode_frame {payload : List UInt8} (h : payload.length ≤ GUESTLOG_MAX_PAYLOAD) :
    guestlogDecode (frame payload) GUESTLOG_MAX_PAYLOAD = some payload := by
  have hlen := length_frame payload
  have hhex : slice (frame payload) GUESTLOG_PREFIX.length
      ((frame payload).length - 1 - GUESTLOG_PREFIX.length) = payload.flatMap hexByte := by
    have hn : (frame payload).length - 1 - GUESTLOG_PREFIX.length = (payload.flatMap hexByte).length := by
      rw [hlen, length_flatMap_hexByte, guestlogFrameLen]
      omega
    rw [hn, frame, List.append_assoc, slice_skip _ _ (Nat.le_refl _), Nat.sub_self, slice_here _ _ rfl]
  have htake : (frame payload).take GUESTLOG_PREFIX.length = GUESTLOG_PREFIX := by
    rw [frame, List.append_assoc, List.take_left]
  have hlast : (frame payload).getLast? = some LF := by
    rw [frame, List.getLast?_concat]
  have hroom : ¬(frame payload).length < GUESTLOG_PREFIX.length + 1 := by
    rw [hlen, guestlogFrameLen]
    omega
  simp only [guestlogDecode, hhex, htake, hlast, hroom, length_flatMap_hexByte, hexPairs_flatMap, ne_eq,
    not_true_eq_false, or_self, if_false, Nat.mul_mod_right, Nat.mul_div_cancel_left _ Nat.zero_lt_two]
  rw [if_neg (by omega)]

/-! ## The emitter -/

/-- The collected bytes and what stands on the console. -/
structure Emitter where
  buf : Block GUESTLOG_MAX_PAYLOAD
  len : Nat
  console : List UInt8

def kgLogReset (s : Emitter) : Emitter := { s with len := 0 }

def kgLogFlush (s : Emitter) : Emitter :=
  if s.len = 0 then s
  else
    let (n, out) := guestlogEncode (s.buf.val.take s.len) (zeros GUESTLOG_MAX_FRAME).val
    { s with console := s.console ++ out.take n, len := 0 }

/-- One byte stored at the end of the buffer. -/
def kgLogStore (s : Emitter) (b : UInt8) : Emitter :=
  { s with buf := ⟨s.buf.val.set s.len b, by rw [List.length_set, s.buf.property]⟩, len := s.len + 1 }

def kgLogPush (s : Emitter) (b : UInt8) : Emitter :=
  let s := if s.len ≥ GUESTLOG_MAX_PAYLOAD then kgLogFlush s else s
  let s := kgLogStore s b
  if b = LF ∨ s.len ≥ GUESTLOG_MAX_PAYLOAD then kgLogFlush s else s

/-- A store to the data register carries the byte in its low eight bits. -/
def drWrite (s : Emitter) (value : BitVec 64) : Emitter := kgLogPush s (.ofNat (value &&& 0xFF).toNat)

/-! ## What the console holds -/

/-- The console began with `before`, then the payloads left as frames, and the buffer holds
the rest of the guest's `bytes`. -/
structure Emitting (before : List UInt8) (payloads : List (List UInt8)) (bytes : List UInt8) (s : Emitter) :
    Prop where
  console : s.console = before ++ payloads.flatMap frame
  bounded : ∀ p ∈ payloads, p ≠ [] ∧ p.length ≤ GUESTLOG_MAX_PAYLOAD
  held : s.len ≤ GUESTLOG_MAX_PAYLOAD
  bytes : payloads.flatten ++ s.buf.val.take s.len = bytes

namespace Emitting

variable {before : List UInt8} {payloads : List (List UInt8)} {bytes : List UInt8} {s : Emitter}

theorem flush (h : Emitting before payloads bytes s) :
    ∃ payloads', Emitting before payloads' bytes (kgLogFlush s) ∧ (kgLogFlush s).len = 0 := by
  unfold kgLogFlush
  split
  case isTrue hz => exact ⟨payloads, h, hz⟩
  case isFalse hz =>
    have hbuf := s.buf.property
    have hheld := h.held
    have hlen : (s.buf.val.take s.len).length = s.len := by
      rw [List.length_take, hbuf]
      omega
    have hroom : (zeros GUESTLOG_MAX_FRAME).val.length = GUESTLOG_MAX_FRAME := (zeros _).property
    have henc : guestlogEncode (s.buf.val.take s.len) (zeros GUESTLOG_MAX_FRAME).val =
        (guestlogFrameLen s.len, frame (s.buf.val.take s.len) ++
          (zeros GUESTLOG_MAX_FRAME).val.drop (guestlogFrameLen s.len)) := by
      simp only [guestlogEncode, hlen, hroom]
      rw [if_neg (by omega), if_neg (by simp only [GUESTLOG_MAX_FRAME, guestlogFrameLen]; omega)]
    have htake : (frame (s.buf.val.take s.len) ++
        (zeros GUESTLOG_MAX_FRAME).val.drop (guestlogFrameLen s.len)).take (guestlogFrameLen s.len) =
        frame (s.buf.val.take s.len) := List.take_left' (by rw [length_frame, hlen])
    refine ⟨payloads ++ [s.buf.val.take s.len], ⟨?_, ?_, ?_, ?_⟩, rfl⟩
    · rw [henc]
      simp only [htake, h.console, List.flatMap_append, List.flatMap_singleton, List.append_assoc]
    · intro p hp
      rcases List.mem_append.mp hp with hp | hp
      · exact h.bounded p hp
      · rw [List.mem_singleton.mp hp]
        exact ⟨fun hnil => hz (by rw [← hlen, hnil]; rfl), by rw [hlen]; exact hheld⟩
    · exact Nat.zero_le _
    · rw [List.flatten_append, List.flatten_singleton, List.take_zero, List.append_nil]
      exact h.bytes

theorem store (h : Emitting before payloads bytes s) (hlt : s.len < GUESTLOG_MAX_PAYLOAD) (b : UInt8) :
    Emitting before payloads (bytes ++ [b]) (kgLogStore s b) := by
  refine ⟨h.console, h.bounded, hlt, ?_⟩
  have hset : (s.buf.val.set s.len b).take (s.len + 1) = s.buf.val.take s.len ++ [b] := by
    have hin : s.len < (s.buf.val.set s.len b).length := by
      rw [List.length_set, s.buf.property]
      exact hlt
    rw [List.take_succ_eq_append_getElem hin, List.getElem_set_self, List.take_set_of_le (Nat.le_refl _)]
  show payloads.flatten ++ (s.buf.val.set s.len b).take (s.len + 1) = bytes ++ [b]
  rw [hset, ← List.append_assoc, h.bytes]

theorem push (h : Emitting before payloads bytes s) (b : UInt8) :
    ∃ payloads', Emitting before payloads' (bytes ++ [b]) (kgLogPush s b) := by
  -- the buffer has room once the defensive flush is done
  have hroom : ∃ payloads', Emitting before payloads' bytes
      (if s.len ≥ GUESTLOG_MAX_PAYLOAD then kgLogFlush s else s) ∧
      (if s.len ≥ GUESTLOG_MAX_PAYLOAD then kgLogFlush s else s).len < GUESTLOG_MAX_PAYLOAD := by
    split
    case isTrue =>
      obtain ⟨payloads', hflush, hz⟩ := h.flush
      exact ⟨payloads', hflush, by rw [hz]; decide⟩
    case isFalse hlt => exact ⟨payloads, h, Nat.lt_of_not_le hlt⟩
  simp only [kgLogPush]
  generalize (if s.len ≥ GUESTLOG_MAX_PAYLOAD then kgLogFlush s else s) = t at hroom
  obtain ⟨payloads', h', hlt⟩ := hroom
  have hstore := h'.store hlt b
  split
  case isTrue =>
    obtain ⟨payloads'', hflush, -⟩ := hstore.flush
    exact ⟨payloads'', hflush⟩
  case isFalse => exact ⟨payloads', hstore⟩

end Emitting

/-- A line of the guest log: the prefix, lowercase hex, one line feed. -/
def GuestLine (line : List UInt8) : Prop :=
  ∃ hex, line = GUESTLOG_PREFIX ++ hex ++ [LF] ∧ ∀ c ∈ hex, isHexLower c = true

theorem guestLine_frame (payload : List UInt8) : GuestLine (frame payload) :=
  ⟨_, rfl, fun _ hc => isHexLower_of_mem hc⟩

/-- A frame is one line. -/
theorem LF_notMem_frame (payload : List UInt8) : LF ∉ GUESTLOG_PREFIX ++ payload.flatMap hexByte := by
  intro hmem
  rcases List.mem_append.mp hmem with hpre | hhex
  · exact absurd hpre (by decide)
  · exact absurd (isHexLower_of_mem hhex) (by decide)

end Yuva.El2
