/-
# `Yuva.Lib.Blake2s` — BLAKE2s as RFC 7693 defines it

Words are 32 bits, bytes are joined to words with the least significant first, blocks have 64
bytes.

    §2.6   IV: square roots of the first eight primes      `IV`
    §2.7   SIGMA                                           `sigma`
    §3.1   the mixing function G                           `mix`
    §3.2   the compression function F                      `compress`
    §3.3   padding, counters, and the final block          `dataBlocks`, `absorb`, `blake2s`

The sixteen words of the local vector are a function of their index.  A key is a byte string of
at most 32 bytes, the empty one for the unkeyed hash.

Nothing here mentions a particular program.
-/
import Mathlib.Logic.Function.Basic
import Yuva.Lib.Bytes
import Yuva.Lib.Chunks
import Yuva.Lib.Roots

namespace Yuva.Blake2s

open Yuva.Bytes Yuva.Chunks Yuva.Roots

abbrev Lanes := Fin 16 → Word
abbrev State := Fin 8 → Word

local instance someLane : NeZero 16 := ⟨by decide⟩

theorem lane_low (i : Fin 8) : i.val < 16 := by omega

theorem lane_high (i : Fin 8) : i.val + 8 < 16 := by omega

def IV (i : Nat) : Word := rootBits 2 (primes.getD i 0)

def sigma : List (List (Fin 16)) :=
  [[0, 1, 2, 3, 4, 5, 6, 7, 8, 9, 10, 11, 12, 13, 14, 15],
   [14, 10, 4, 8, 9, 15, 13, 6, 1, 12, 0, 2, 11, 7, 5, 3],
   [11, 8, 12, 0, 5, 2, 15, 13, 10, 14, 3, 6, 7, 1, 9, 4],
   [7, 9, 3, 1, 13, 12, 11, 14, 2, 6, 5, 10, 4, 0, 15, 8],
   [9, 0, 5, 7, 2, 4, 10, 15, 14, 1, 11, 12, 6, 8, 3, 13],
   [2, 12, 6, 10, 0, 11, 8, 3, 4, 13, 7, 5, 15, 14, 1, 9],
   [12, 5, 1, 15, 14, 13, 4, 10, 0, 7, 6, 3, 9, 2, 8, 11],
   [13, 11, 7, 14, 12, 1, 3, 9, 5, 0, 15, 4, 8, 6, 2, 10],
   [6, 15, 14, 9, 11, 3, 0, 8, 12, 2, 13, 7, 1, 4, 10, 5],
   [10, 2, 8, 4, 7, 6, 1, 5, 15, 11, 9, 14, 3, 12, 13, 0]]

/-- Two message words mixed into four lanes. -/
def mix (v : Lanes) (a b c d : Fin 16) (x y : Word) : Lanes :=
  let v := Function.update v a (v a + v b + x)
  let v := Function.update v d ((v d ^^^ v a).rotateRight 16)
  let v := Function.update v c (v c + v d)
  let v := Function.update v b ((v b ^^^ v c).rotateRight 12)
  let v := Function.update v a (v a + v b + y)
  let v := Function.update v d ((v d ^^^ v a).rotateRight 8)
  let v := Function.update v c (v c + v d)
  Function.update v b ((v b ^^^ v c).rotateRight 7)

/-- Word `i` of a block. -/
def messageWord (block : List UInt8) (i : Nat) : Word := .ofNat 32 (unle (slice block (4 * i) 4))

/-- One round, in the order of a row of `sigma`. -/
def round (m : Nat → Word) (v : Lanes) (s : List (Fin 16)) : Lanes :=
  let word := fun i => m (s.getD i 0).val
  let v := mix v 0 4 8 12 (word 0) (word 1)
  let v := mix v 1 5 9 13 (word 2) (word 3)
  let v := mix v 2 6 10 14 (word 4) (word 5)
  let v := mix v 3 7 11 15 (word 6) (word 7)
  let v := mix v 0 5 10 15 (word 8) (word 9)
  let v := mix v 1 6 11 12 (word 10) (word 11)
  let v := mix v 2 7 8 13 (word 12) (word 13)
  mix v 3 4 9 14 (word 14) (word 15)

/-- The local vector of a state, under an offset counter and the flag of the last block. -/
def start (h : State) (t : Nat) (final : Bool) : Lanes :=
  let v : Lanes := fun i => if hi : i.val < 8 then h ⟨i.val, hi⟩ else IV (i.val - 8)
  let v := Function.update v 12 (v 12 ^^^ .ofNat 32 t)
  let v := Function.update v 13 (v 13 ^^^ .ofNat 32 (t >>> 32))
  if final then Function.update v 14 (v 14 ^^^ 0xffffffff) else v

def compress (h : State) (block : List UInt8) (t : Nat) (final : Bool) : State :=
  let v := sigma.foldl (round (messageWord block)) (start h t final)
  fun i => h i ^^^ v ⟨i.val, lane_low i⟩ ^^^ v ⟨i.val + 8, lane_high i⟩

/-- A byte string, filled up with zeros to whole blocks. -/
def zeroPad (m : List UInt8) : List UInt8 := m ++ List.replicate ((64 - m.length % 64) % 64) 0

/-- The padded key, if there is one, and the padded message; one block of zeros if there is
neither. -/
def dataBlocks (key m : List UInt8) : List (List UInt8) :=
  if key = [] ∧ m = [] then [List.replicate 64 0] else chunks 64 (zeroPad key) ++ chunks 64 (zeroPad m)

/-- The blocks from the `i`-th on; the last one has a counter of its own. -/
def absorb (h : State) (i total : Nat) : List (List UInt8) → State
  | [] => h
  | [b] => compress h b total true
  | b :: b' :: bs => absorb (compress h b ((i + 1) * 64) false) (i + 1) total (b' :: bs)

/-- The first `nn` bytes of the hash. -/
def blake2s (key : List UInt8) (nn : Nat) (m : List UInt8) : List UInt8 :=
  let h : State := fun i => IV i.val
  let h := Function.update h 0 (h 0 ^^^ (0x01010000 : Word) ^^^ (BitVec.ofNat 32 key.length <<< 8) ^^^ .ofNat 32 nn)
  let total := if key = [] then m.length else m.length + 64
  let h := absorb h 0 total (dataBlocks key m)
  (((List.finRange 8).map fun i => le 4 (h i).toNat).flatten).take nn

/-! ## Filling up -/

theorem zeroPad_piece {a : List UInt8} (m : List UInt8) (ha : a.length = 64) : zeroPad (a ++ m) = a ++ zeroPad m := by
  rw [zeroPad, zeroPad, List.length_append, ha, Nat.add_mod_left, List.append_assoc]

theorem zeroPad_last {m : List UInt8} (hm : m ≠ []) (h : m.length ≤ 64) :
    zeroPad m = m ++ List.replicate (64 - m.length) 0 := by
  have hpos := List.length_pos_iff.mpr hm
  have hcount : (64 - m.length % 64) % 64 = 64 - m.length := by omega
  rw [zeroPad, hcount]

/-- The padded string starts with the string and is less than a block longer. -/
theorem zeroPad_take (m : List UInt8) : (zeroPad m).take m.length = m := by rw [zeroPad, List.take_left]

theorem length_zeroPad (m : List UInt8) : m.length ≤ (zeroPad m).length ∧ (zeroPad m).length < m.length + 64 := by
  rw [zeroPad, List.length_append, List.length_replicate]
  omega

end Yuva.Blake2s
