/-
# `Yuva.Hash.Sha256` — SHA-256

`tb-encode/src/sha256.rs`: the compression function, the one-shot `sha256` and the streaming
`Sha256` with `new`, `update` and `finalize`.  Words are `BitVec 32` and the byte count is a
`BitVec 64`, so every sum wraps as the source's does.  The schedule is an array of sixty-four
words that the loops fill in place; blocks are buffers of sixty-four bytes, and a store past
their end would be a panic (`none`).

**Proved here.**  However a message is split into `update` calls, `finalize` returns the digest
of FIPS 180-4 (`Yuva.Lib.Sha2`), and so does the one-shot function (`sha256_correct`).  The
invariant of the streaming state is `Holds`: the hash value has absorbed the whole blocks of
the message so far and the front of the buffer is its rest.
-/
import Yuva.Lib.Sha2
import Yuva.Lib.Stores

namespace Yuva.Sha

open Yuva.Bytes Yuva.Checked Yuva.Stores Yuva.Chunks Yuva.Roots

def BLOCK_LEN : Nat := 64

def H0 : Vector Word 8 :=
  #v[0x6A09E667, 0xBB67AE85, 0x3C6EF372, 0xA54FF53A, 0x510E527F, 0x9B05688C, 0x1F83D9AB, 0x5BE0CD19]

def K : List Word :=
  [0x428A2F98, 0x71374491, 0xB5C0FBCF, 0xE9B5DBA5, 0x3956C25B, 0x59F111F1, 0x923F82A4, 0xAB1C5ED5,
   0xD807AA98, 0x12835B01, 0x243185BE, 0x550C7DC3, 0x72BE5D74, 0x80DEB1FE, 0x9BDC06A7, 0xC19BF174,
   0xE49B69C1, 0xEFBE4786, 0x0FC19DC6, 0x240CA1CC, 0x2DE92C6F, 0x4A7484AA, 0x5CB0A9DC, 0x76F988DA,
   0x983E5152, 0xA831C66D, 0xB00327C8, 0xBF597FC7, 0xC6E00BF3, 0xD5A79147, 0x06CA6351, 0x14292967,
   0x27B70A85, 0x2E1B2138, 0x4D2C6DFC, 0x53380D13, 0x650A7354, 0x766A0ABB, 0x81C2C92E, 0x92722C85,
   0xA2BFE8A1, 0xA81A664B, 0xC24B8B70, 0xC76C51A3, 0xD192E819, 0xD6990624, 0xF40E3585, 0x106AA070,
   0x19A4C116, 0x1E376C08, 0x2748774C, 0x34B0BCB5, 0x391C0CB3, 0x4ED8AA4A, 0x5B9CCA4F, 0x682E6FF3,
   0x748F82EE, 0x78A5636F, 0x84C87814, 0x8CC70208, 0x90BEFFFA, 0xA4506CEB, 0xBEF9A3F7, 0xC67178F2]

/-! ## The compression function -/

/-- `w[t]`, the `t`-th word of the block. -/
def loadWord (block : List UInt8) (w : List Word) (t : Nat) : List Word :=
  w.set t (.ofNat 32 (unbe (slice block (t * 4) 4)))

/-- `w[t]`, from the words before it. -/
def extendWord (w : List Word) (t : Nat) : List Word :=
  let w15 := w.getD (t - 15) 0
  let w2 := w.getD (t - 2) 0
  let s0 := w15.rotateRight 7 ^^^ w15.rotateRight 18 ^^^ (w15 >>> 3)
  let s1 := w2.rotateRight 17 ^^^ w2.rotateRight 19 ^^^ (w2 >>> 10)
  w.set t (w.getD (t - 16) 0 + s0 + w.getD (t - 7) 0 + s1)

def schedule (block : List UInt8) : List Word :=
  (List.range' 16 48).foldl extendWord ((List.range 16).foldl (loadWord block) (List.replicate 64 0))

/-- The round of index `i` on the eight working variables. -/
def round (w : List Word) (v : Sha2.Vars) (i : Nat) : Sha2.Vars :=
  let bigS1 := v.e.rotateRight 6 ^^^ v.e.rotateRight 11 ^^^ v.e.rotateRight 25
  let ch := (v.e &&& v.f) ^^^ (~~~v.e &&& v.g)
  let t1 := v.h + bigS1 + ch + K.getD i 0 + w.getD i 0
  let bigS0 := v.a.rotateRight 2 ^^^ v.a.rotateRight 13 ^^^ v.a.rotateRight 22
  let maj := (v.a &&& v.b) ^^^ (v.a &&& v.c) ^^^ (v.b &&& v.c)
  let t2 := bigS0 + maj
  { h := v.g, g := v.f, f := v.e, e := v.d + t1, d := v.c, c := v.b, b := v.a, a := t1 + t2 }

def compress (h : Vector Word 8) (block : List UInt8) : Vector Word 8 :=
  let w := schedule block
  let v : Sha2.Vars :=
    { a := h[0]!, b := h[1]!, c := h[2]!, d := h[3]!, e := h[4]!, f := h[5]!, g := h[6]!, h := h[7]! }
  let v := (List.range 64).foldl (round w) v
  #v[h[0]! + v.a, h[1]! + v.b, h[2]! + v.c, h[3]! + v.d, h[4]! + v.e, h[5]! + v.f, h[6]! + v.g, h[7]! + v.h]

/-- The eight words as big-endian bytes. -/
def digestBytes (h : Vector Word 8) : List UInt8 := (h.toList.map fun x => be 4 x.toNat).flatten

/-! ## One shot -/

def zeroBlock : List UInt8 := List.replicate BLOCK_LEN 0

/-- Every full block of the message from an offset on. -/
def fullBlocks (msg : List UInt8) (h : Vector Word 8) (off : Nat) : Option (Vector Word 8 × Nat) :=
  if BLOCK_LEN ≤ msg.length - off then do
    let block ← copyFrom msg off 0 0 BLOCK_LEN zeroBlock
    fullBlocks msg (compress h block) (off + BLOCK_LEN)
  else some (h, off)
termination_by msg.length - off
decreasing_by
  rename_i hfull
  rw [BLOCK_LEN] at hfull ⊢
  omega

def sha256 (msg : List UInt8) : Option (List UInt8) := do
  let (h, off) ← fullBlocks msg H0 0
  let rem := msg.length - off
  let bitLen := BitVec.ofNat 64 msg.length * 8
  let block ← copyFrom msg off 0 0 rem zeroBlock
  let block ← setAt block rem 0x80
  let (h, block) := if 56 ≤ rem then (compress h block, zeroBlock) else (h, block)
  let block ← copyLoop (be 8 bitLen.toNat) 8 block 56
  return digestBytes (compress h block)

/-! ## Streaming -/

structure Sha256 where
  h : Vector Word 8
  block : List UInt8
  bufLen : Nat
  totalLen : BitVec 64

def new : Sha256 := { h := H0, block := zeroBlock, bufLen := 0, totalLen := 0 }

/-- One byte of `update`. -/
def absorbByte (s : Sha256) (b : UInt8) : Option Sha256 := do
  let block ← setAt s.block s.bufLen b
  let bufLen := s.bufLen + 1
  if bufLen = BLOCK_LEN then return { s with h := compress s.h block, block := block, bufLen := 0 }
  else return { s with block := block, bufLen := bufLen }

def update (s : Sha256) (data : List UInt8) : Option Sha256 := do
  let s ← data.foldlM absorbByte s
  return { s with totalLen := s.totalLen + .ofNat 64 data.length }

/-- `while buf_len < limit { block[buf_len] = 0; buf_len += 1 }`, which leaves `buf_len` at the limit. -/
def zeroTo (limit : Nat) (block : List UInt8) (bufLen : Nat) : Option (List UInt8) :=
  fillFrom 0 bufLen (limit - bufLen) block

def finalize (s : Sha256) : Option (List UInt8) := do
  let bitLen := s.totalLen * 8
  let block ← setAt s.block s.bufLen 0x80
  let bufLen := s.bufLen + 1
  let (h, block, bufLen) ←
    if bufLen > 56 then do
      let block ← zeroTo BLOCK_LEN block bufLen
      pure (compress s.h block, block, 0)
    else pure (s.h, block, bufLen)
  let block ← zeroTo 56 block bufLen
  let block ← copyLoop (be 8 bitLen.toNat) 8 block 56
  return digestBytes (compress h block)

/-! ## The compression function is the standard's -/

/-- The table of round constants holds the roots. -/
theorem K_eq {t : Nat} (h : t < 64) : K.getD t 0 = Sha2.K t := by
  have htable : K = primes.map (rootBits 3) := by decide +kernel
  have hlen : primes.length = 64 := by
    have hmap := congrArg List.length htable
    rw [List.length_map] at hmap
    exact hmap.symm
  have ht : t < primes.length := by omega
  rw [htable, Sha2.K, List.getD_eq_getElem _ _ (by rwa [List.length_map]), List.getElem_map,
    List.getD_eq_getElem _ _ ht]

/-- A hash value as eight words. -/
def vars (h : Vector Word 8) : Sha2.Vars :=
  { a := h[0]!, b := h[1]!, c := h[2]!, d := h[3]!, e := h[4]!, f := h[5]!, g := h[6]!, h := h[7]! }

theorem vars_H0 : vars H0 = Sha2.initial := by decide

theorem getD_set_self {w : List Word} {t : Nat} (x : Word) (h : t < w.length) : (w.set t x).getD t 0 = x := by
  rw [List.getD_eq_getElem _ _ (by rwa [List.length_set]), List.getElem_set_self]

theorem getD_set_ne {w : List Word} {t i : Nat} (x : Word) (h : t ≠ i) : (w.set t x).getD i 0 = w.getD i 0 := by
  rw [List.getD_eq_getElem?_getD, List.getD_eq_getElem?_getD, List.getElem?_set_ne h]

/-- An array whose first `n` words are the schedule's. -/
def Scheduled (block : List UInt8) (n : Nat) (w : List Word) : Prop :=
  w.length = 64 ∧ ∀ i < n, w.getD i 0 = Sha2.W (Sha2.messageWord block) i

/-- A store of the next word. -/
theorem scheduled_set {block : List UInt8} {n : Nat} {w : List Word} {x : Word} (h : Scheduled block n w)
    (hn : n < 64) (hx : x = Sha2.W (Sha2.messageWord block) n) : Scheduled block (n + 1) (w.set n x) := by
  obtain ⟨hlen, hw⟩ := h
  refine ⟨by rw [List.length_set, hlen], fun i hi => ?_⟩
  by_cases hin : n = i
  · subst hin
    rw [getD_set_self _ (by omega), hx]
  · rw [getD_set_ne _ hin]
    exact hw i (by omega)

theorem scheduled_load (block : List UInt8) {n : Nat} (hn : n ≤ 16) :
    Scheduled block n ((List.range n).foldl (loadWord block) (List.replicate 64 0)) := by
  induction n with
  | zero => exact ⟨List.length_replicate, fun i hi => absurd hi (Nat.not_lt_zero i)⟩
  | succ n ih =>
      rw [List.range_succ, List.foldl_append]
      refine scheduled_set (ih (by omega)) (by omega) ?_
      rw [Sha2.W_of_lt (by omega), Sha2.messageWord, Nat.mul_comm]

theorem scheduled_extend {block : List UInt8} {n t : Nat} {w : List Word} (h : Scheduled block t w) (ht : 16 ≤ t)
    (hn : t + n ≤ 64) : Scheduled block (t + n) ((List.range' t n).foldl extendWord w) := by
  induction n generalizing t w with
  | zero => exact h
  | succ n ih =>
      have hshift : t + (n + 1) = t + 1 + n := by omega
      rw [List.range'_succ, List.foldl_cons, hshift]
      refine ih (scheduled_set h (by omega) ?_) (by omega) (by omega)
      rw [h.2 (t - 15) (by omega), h.2 (t - 2) (by omega), h.2 (t - 16) (by omega), h.2 (t - 7) (by omega),
        Sha2.W_of_le ht]
      -- the source adds the four words in another order
      simp only [Sha2.smallSigma0, Sha2.smallSigma1]
      ac_rfl

theorem schedule_eq (block : List UInt8) {t : Nat} (h : t < 64) :
    (schedule block).getD t 0 = Sha2.W (Sha2.messageWord block) t :=
  (scheduled_extend (n := 48) (scheduled_load block (Nat.le_refl 16)) (Nat.le_refl 16) (by decide)).2 t h

theorem rounds_eq (block : List UInt8) (v : Sha2.Vars) {n : Nat} (h : n ≤ 64) :
    (List.range n).foldl (round (schedule block)) v = Sha2.rounds (Sha2.W (Sha2.messageWord block)) n v := by
  induction n with
  | zero => rfl
  | succ n ih =>
      rw [List.range_succ, List.foldl_append, ih (by omega), List.foldl_cons, List.foldl_nil, round,
        K_eq (by omega), schedule_eq block (by omega)]
      rfl

theorem compress_eq (h : Vector Word 8) (block : List UInt8) :
    vars (compress h block) = Sha2.compress (vars h) block := by
  have hrounds := rounds_eq block (vars h) (Nat.le_refl 64)
  rw [Sha2.compress, ← hrounds]
  simp only [compress, vars, BitVec.add_comm]
  rfl

theorem digestBytes_eq (h : Vector Word 8) : digestBytes h = Sha2.digest (vars h) := by
  have hlist : h.toList = [h[0]!, h[1]!, h[2]!, h[3]!, h[4]!, h[5]!, h[6]!, h[7]!] := by
    refine List.ext_getElem (by simp) fun i hi _ => ?_
    rw [Vector.length_toList] at hi
    rw [Vector.getElem_toList]
    rcases i with _ | _ | _ | _ | _ | _ | _ | _ | i <;> first | rfl | omega
  rw [digestBytes, hlist, Sha2.digest, vars]

theorem foldl_compress_eq (h : Vector Word 8) (blocks : List (List UInt8)) :
    vars (blocks.foldl compress h) = blocks.foldl Sha2.compress (vars h) := by
  induction blocks generalizing h with
  | nil => rfl
  | cons b blocks ih => rw [List.foldl_cons, List.foldl_cons, ih, compress_eq]

/-- The standard's digest, from the source's compression function. -/
theorem sha256_eq_foldl (m : List UInt8) :
    Sha2.sha256 m = digestBytes ((chunks 64 (Sha2.pad m)).foldl compress H0) := by
  rw [Sha2.sha256, digestBytes_eq, foldl_compress_eq, vars_H0]

/-! ## The last blocks -/

/-- The length field holds the low 64 bits of the bit count. -/
theorem be_bitLen (len : Nat) : be 8 (BitVec.ofNat 64 len * 8).toNat = be 8 (8 * len) := by
  have hmul : (BitVec.ofNat 64 len * 8).toNat = 8 * len % 256 ^ 8 := by
    rw [BitVec.toNat_mul, BitVec.toNat_ofNat, Nat.mod_mul_mod, Nat.mul_comm]
    rfl
  have hle := le_unle (le 8 (8 * len))
  rw [length_le, unle_le] at hle
  rw [hmul, be, be, hle]

/-- The length, stored at the end of a block. -/
theorem store_length {block front : List UInt8} (len : Nat) (hblock : block.length = 64)
    (hfront : block.take 56 = front) :
    copyLoop (be 8 (8 * len)) 8 block 56 = some (front ++ be 8 (8 * len)) := by
  rw [copyLoop_eq (length_be 8 _) (by omega), splice, hfront, length_be, List.drop_of_length_le (by omega),
    List.append_nil]

theorem length_zeroBlock : zeroBlock.length = 64 := List.length_replicate

/-- A rest, its end mark and zeros. -/
def marked (r : List UInt8) (room : Nat) : List UInt8 := r ++ [0x80] ++ List.replicate (room - (r.length + 1)) 0

/-- The digest of a message, from the hash value that has absorbed its blocks and its rest. -/
def finish (h : Vector Word 8) (r : List UInt8) (len : Nat) : List UInt8 :=
  if r.length < 56 then digestBytes (compress h (marked r 56 ++ be 8 (8 * len)))
  else digestBytes (compress (compress h (marked r 64)) (List.replicate 56 0 ++ be 8 (8 * len)))

theorem finish_eq (m : List UInt8) :
    finish ((chunks 64 m).foldl compress H0) (rest 64 m) m.length = Sha2.sha256 m := by
  have hlen : (rest 64 m).length = m.length % 64 := length_rest m
  rw [sha256_eq_foldl, Sha2.chunks_pad, List.foldl_append, finish]
  split
  case isTrue h =>
    rw [Sha2.chunks_rest_one hlen (by omega), marked, Nat.add_comm, ← Nat.sub_sub]
    rfl
  case isFalse h =>
    rw [Sha2.chunks_rest_two hlen (by omega), marked, Nat.add_comm, ← Nat.sub_sub]
    rfl

/-! ## One shot -/

theorem fullBlocks_eq (msg : List UInt8) (h : Vector Word 8) (off : Nat) (hoff : off ≤ msg.length) :
    ∃ off', fullBlocks msg h off = some ((chunks 64 (msg.drop off)).foldl compress h, off') ∧
      off' ≤ msg.length ∧ msg.drop off' = rest 64 (msg.drop off) := by
  rw [fullBlocks]
  split
  case isTrue hfull =>
    rw [BLOCK_LEN] at hfull ⊢
    have hpiece : (slice msg off 64).length = 64 := length_slice (by omega)
    have hblock : copyFrom msg off 0 0 64 zeroBlock = some (slice msg off 64) := by
      rw [copyFrom_eq (by omega) (by rw [length_zeroBlock])]
      exact congrArg some (splice_all (hpiece.trans length_zeroBlock.symm))
    have hsplit : msg.drop off = slice msg off 64 ++ msg.drop (off + 64) := by
      rw [slice, ← List.drop_drop, List.take_append_drop]
    obtain ⟨off', hrun, hle, hdrop⟩ := fullBlocks_eq msg (compress h (slice msg off 64)) (off + 64) (by omega)
    refine ⟨off', ?_, hle, ?_⟩
    · rw [hblock, some_bind, hrun, hsplit, chunks_piece (by decide) _ hpiece, List.foldl_cons]
    · rw [hdrop, hsplit, rest_piece (by decide) _ hpiece]
  case isFalse hshort =>
    rw [BLOCK_LEN] at hshort
    have hlen : (msg.drop off).length < 64 := by
      rw [List.length_drop]
      omega
    refine ⟨off, ?_, hoff, (rest_short hlen).symm⟩
    rw [chunks_short hlen]
    rfl
termination_by msg.length - off
decreasing_by
  rw [BLOCK_LEN] at *
  omega

/-- The marked rest in a buffer of zeros. -/
theorem splice_zeroBlock (r : List UInt8) : splice zeroBlock 0 (r ++ [0x80]) = marked r 64 := by
  rw [splice, List.take_zero, List.nil_append, Nat.zero_add, zeroBlock, List.drop_replicate, List.length_append,
    List.length_singleton, marked, BLOCK_LEN]

theorem take_marked {r : List UInt8} (h : r.length < 56) : (marked r 64).take 56 = marked r 56 := by
  have hfront : (r ++ [0x80]).length ≤ 56 := by
    rw [List.length_append, List.length_singleton]
    omega
  rw [marked, marked, List.take_append, List.take_of_length_le hfront, List.take_replicate, List.length_append,
    List.length_singleton, Nat.min_eq_left (by omega)]

theorem length_marked {r : List UInt8} (h : r.length < 64) : (marked r 64).length = 64 := by
  simp only [marked, List.length_append, List.length_singleton, List.length_replicate]
  omega

theorem sha256_eq (msg : List UInt8) : sha256 msg = some (Sha2.sha256 msg) := by
  obtain ⟨off, hrun, hle, hdrop⟩ := fullBlocks_eq msg H0 0 (Nat.zero_le _)
  rw [List.drop_zero] at hrun hdrop
  have hlt : (rest 64 msg).length < 64 := by
    rw [length_rest]
    exact Nat.mod_lt _ (by decide)
  have hrem : msg.length - off = (rest 64 msg).length := by rw [← hdrop, List.length_drop]
  have hcopy : slice msg (off + 0) (rest 64 msg).length = rest 64 msg := by
    rw [Nat.add_zero, slice, hdrop, List.take_length]
  rw [sha256, hrun, some_bind]
  dsimp only
  rw [hrem, copyFrom_eq (by omega) (by rw [length_zeroBlock]; omega), hcopy, some_bind,
    setAt_front _ rfl (by rw [length_zeroBlock]; exact hlt), some_bind, splice_zeroBlock, be_bitLen, ← finish_eq,
    finish]
  by_cases hroom : 56 ≤ (rest 64 msg).length
  · rw [if_pos hroom, if_neg (Nat.not_lt.mpr hroom)]
    dsimp only
    have hzeros : zeroBlock.take 56 = List.replicate 56 0 := List.take_replicate ..
    rw [store_length msg.length length_zeroBlock hzeros, some_bind]
    rfl
  · rw [if_neg hroom, if_pos (Nat.not_le.mp hroom)]
    dsimp only
    rw [store_length msg.length (length_marked hlt) (take_marked (Nat.not_le.mp hroom)), some_bind]
    rfl

/-! ## Streaming -/

/-- A state that has absorbed the message `m`. -/
structure Holds (s : Sha256) (m : List UInt8) : Prop where
  hash : s.h = (chunks 64 m).foldl compress H0
  size : s.block.length = 64
  front : s.block.take s.bufLen = rest 64 m
  filled : s.bufLen = (rest 64 m).length

theorem holds_new : Holds new [] where
  hash := by
    have hnil : ([] : List UInt8).length < 64 := by decide
    rw [chunks_short hnil]
    rfl
  size := length_zeroBlock
  front := rfl
  filled := rfl

/-- A store behind the front of the buffer. -/
theorem take_store {block : List UInt8} {n : Nat} (b : UInt8) (h : n < block.length) :
    (splice block n [b]).take (n + 1) = block.take n ++ [b] := by
  have hfront : (block.take n ++ [b]).length = n + 1 := by
    rw [List.length_append, List.length_take, List.length_singleton, Nat.min_eq_left (Nat.le_of_lt h)]
  rw [splice, List.take_left' hfront]

theorem bufLen_lt {s : Sha256} {m : List UInt8} (h : Holds s m) : s.bufLen < 64 := by
  rw [h.filled, length_rest]
  exact Nat.mod_lt _ (by decide)

/-- One byte either goes behind the rest or completes a block with it. -/
theorem absorbByte_holds {s : Sha256} {m : List UInt8} (h : Holds s m) (b : UInt8) :
    ∃ s', absorbByte s b = some s' ∧ Holds s' (m ++ [b]) ∧ s'.totalLen = s.totalLen := by
  have hlt := bufLen_lt h
  have hsize := h.size
  have hin : s.bufLen < s.block.length := by omega
  have htake := take_store b hin
  have hlen : (splice s.block s.bufLen [b]).length = 64 := by
    rw [length_splice (by rw [List.length_singleton]; omega), hsize]
  rw [absorbByte, setAt_eq hin, some_bind]
  dsimp only
  by_cases hfull : s.bufLen + 1 = BLOCK_LEN
  · have hrest : (rest 64 m).length + 1 = 64 := by rw [← h.filled, hfull, BLOCK_LEN]
    obtain ⟨hchunks, hnone⟩ := chunks_push_full (by decide) b hrest
    have hblock : splice s.block s.bufLen [b] = rest 64 m ++ [b] := by
      rw [← h.front, ← htake, hfull, BLOCK_LEN, List.take_of_length_le (by omega)]
    rw [if_pos hfull]
    refine ⟨_, rfl, ⟨?_, hlen, ?_, ?_⟩, rfl⟩
    · rw [hchunks, List.foldl_append, ← h.hash, ← hblock]
      rfl
    · rw [hnone]
      rfl
    · rw [hnone]
      rfl
  · have hrest : (rest 64 m).length + 1 < 64 := by
      rw [← h.filled]
      rw [BLOCK_LEN] at hfull
      omega
    obtain ⟨hchunks, hgrown⟩ := chunks_push_short (by decide) b hrest
    rw [if_neg hfull]
    refine ⟨_, rfl, ⟨?_, hlen, ?_, ?_⟩, rfl⟩
    · rw [hchunks, h.hash]
    · rw [hgrown, htake, h.front]
    · rw [hgrown, List.length_append, h.filled]
      rfl

theorem absorb_holds {s : Sha256} {m : List UInt8} (h : Holds s m) (data : List UInt8) :
    ∃ s', data.foldlM absorbByte s = some s' ∧ Holds s' (m ++ data) ∧ s'.totalLen = s.totalLen := by
  induction data generalizing s m with
  | nil => exact ⟨s, rfl, by rwa [List.append_nil], rfl⟩
  | cons b data ih =>
      obtain ⟨s₁, hbyte, hholds, htotal⟩ := absorbByte_holds h b
      obtain ⟨s₂, hrun, hall, hsame⟩ := ih hholds
      refine ⟨s₂, ?_, ?_, hsame.trans htotal⟩
      · rw [List.foldlM_cons, hbyte, some_bind, hrun]
      · rwa [List.append_assoc, List.singleton_append] at hall

theorem update_holds {s : Sha256} {m : List UInt8} (h : Holds s m) (htotal : s.totalLen = .ofNat 64 m.length)
    (data : List UInt8) :
    ∃ s', update s data = some s' ∧ Holds s' (m ++ data) ∧ s'.totalLen = .ofNat 64 (m ++ data).length := by
  obtain ⟨s', hrun, hholds, hsame⟩ := absorb_holds h data
  refine ⟨{ s' with totalLen := s'.totalLen + .ofNat 64 data.length }, ?_, ⟨hholds.1, hholds.2, hholds.3, hholds.4⟩, ?_⟩
  · rw [update, hrun, some_bind]
    rfl
  · rw [hsame, htotal, List.length_append, BitVec.ofNat_add]

/-- Any number of calls absorbs their data, one behind the other. -/
theorem updates_holds {s : Sha256} {m : List UInt8} (h : Holds s m) (htotal : s.totalLen = .ofNat 64 m.length)
    (pieces : List (List UInt8)) :
    ∃ s', pieces.foldlM update s = some s' ∧ Holds s' (m ++ pieces.flatten) ∧
      s'.totalLen = .ofNat 64 (m ++ pieces.flatten).length := by
  induction pieces generalizing s m with
  | nil => exact ⟨s, rfl, by rwa [List.flatten_nil, List.append_nil], by rwa [List.flatten_nil, List.append_nil]⟩
  | cons data pieces ih =>
      obtain ⟨s₁, hone, hholds, hcount⟩ := update_holds h htotal data
      obtain ⟨s₂, hrun, hall, hsum⟩ := ih hholds hcount
      rw [List.append_assoc] at hall hsum
      exact ⟨s₂, by rw [List.foldlM_cons, hone, some_bind, hrun], hall, hsum⟩

theorem zeroTo_eq {limit n : Nat} {block : List UInt8} (hblock : block.length = 64) (hn : n ≤ limit)
    (hlimit : limit ≤ 64) :
    ∃ block', zeroTo limit block n = some block' ∧ block'.length = 64 ∧
      block'.take limit = block.take n ++ List.replicate (limit - n) 0 := by
  have hroom : n + (List.replicate (limit - n) (0 : UInt8)).length ≤ block.length := by
    rw [List.length_replicate]
    omega
  have hfront : (block.take n ++ List.replicate (limit - n) (0 : UInt8)).length = limit := by
    rw [List.length_append, List.length_take, List.length_replicate]
    omega
  refine ⟨splice block n (List.replicate (limit - n) 0), ?_, by rw [length_splice hroom, hblock], ?_⟩
  · rw [zeroTo, fillFrom_eq (by omega), Nat.zero_add]
  · rw [splice, List.take_left' hfront]

theorem finalize_eq {s : Sha256} {m : List UInt8} (h : Holds s m) (htotal : s.totalLen = .ofNat 64 m.length) :
    finalize s = some (Sha2.sha256 m) := by
  have hlt := bufLen_lt h
  have hsize := h.size
  have hfilled := h.filled
  have hin : s.bufLen < s.block.length := by omega
  have hlen : (splice s.block s.bufLen [0x80]).length = 64 := by
    rw [length_splice (by rw [List.length_singleton]; omega), hsize]
  have hmark : (splice s.block s.bufLen [0x80]).take (s.bufLen + 1) = rest 64 m ++ [0x80] := by
    rw [take_store _ hin, h.front]
  rw [finalize]
  dsimp only
  rw [setAt_eq hin, some_bind, htotal, be_bitLen, ← finish_eq, finish]
  by_cases hfull : s.bufLen + 1 > 56
  · obtain ⟨first, hfirst, hfirstLen, hfirstTake⟩ := zeroTo_eq hlen hlt (Nat.le_refl 64)
    have hmarked : first = marked (rest 64 m) 64 := by
      rw [List.take_of_length_le (by omega), hmark] at hfirstTake
      rw [hfirstTake, marked, hfilled]
    obtain ⟨last, hlast, hlastLen, hlastTake⟩ := zeroTo_eq hfirstLen (Nat.zero_le 56) (by decide)
    rw [List.take_zero, List.nil_append] at hlastTake
    rw [if_pos hfull, BLOCK_LEN, hfirst, some_bind, pure_bind, hlast, some_bind,
      store_length m.length hlastLen hlastTake, some_bind, if_neg (by omega), ← h.hash, ← hmarked]
    rfl
  · obtain ⟨last, hlast, hlastLen, hlastTake⟩ := zeroTo_eq hlen (Nat.not_lt.mp hfull) (by decide)
    have hmarked : last.take 56 = marked (rest 64 m) 56 := by
      rw [hlastTake, hmark, marked, hfilled]
    rw [if_neg hfull, pure_bind, hlast, some_bind, store_length m.length hlastLen hmarked, some_bind,
      if_pos (by omega), ← h.hash]
    rfl

/-- Calls of `update`, from a new state on, and `finalize`. -/
theorem streamed_eq (pieces : List (List UInt8)) :
    (do finalize (← pieces.foldlM update new)) = some (Sha2.sha256 pieces.flatten) := by
  obtain ⟨s, hrun, hholds, htotal⟩ := updates_holds holds_new rfl pieces
  rw [hrun, some_bind]
  exact finalize_eq hholds htotal

/-- However a message is split into calls of `update`, `finalize` returns the digest that
FIPS 180-4 defines for the whole of it, and so does the one-shot function. -/
theorem sha256_correct (pieces : List (List UInt8)) :
    (do finalize (← pieces.foldlM update new)) = some (Sha2.sha256 pieces.flatten) ∧
      sha256 pieces.flatten = some (Sha2.sha256 pieces.flatten) :=
  ⟨streamed_eq pieces, sha256_eq _⟩

end Yuva.Sha
