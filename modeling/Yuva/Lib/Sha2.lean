/-
# `Yuva.Lib.Sha2` — SHA-256 as FIPS 180-4 defines it

Words are 32 bits, bytes are joined to words with the most significant first.

    §4.1.2   Ch, Maj, Σ₀, Σ₁, σ₀, σ₁                       `ch` … `smallSigma1`
    §4.2.2   K: cube roots of the first sixty-four primes    `K`
    §5.1.1   the padding, with the fewest zeros              `pad`, `zeroCount_spec`
    §5.2.1   blocks of sixteen words                         `messageWord`
    §5.3.3   H: square roots of the first eight primes       `H`
    §6.2.2   schedule, rounds, intermediate hash value       `W`, `rounds`, `compress`

The constants are not copied: each is read off its root (`Yuva.Lib.Roots`).  A message is a list
of bytes.  The length field has 64 bits, so the standard speaks of messages below 2^61 bytes; for
longer ones the field here holds the low bits.

Nothing here mentions a particular program.
-/
import Yuva.Lib.Bytes
import Yuva.Lib.Chunks
import Yuva.Lib.Roots

namespace Yuva.Sha2

open Yuva.Bytes Yuva.Chunks Yuva.Roots

/-! ## Functions and constants -/

def ch (x y z : Word) : Word := (x &&& y) ^^^ (~~~x &&& z)
def maj (x y z : Word) : Word := (x &&& y) ^^^ (x &&& z) ^^^ (y &&& z)
def bigSigma0 (x : Word) : Word := x.rotateRight 2 ^^^ x.rotateRight 13 ^^^ x.rotateRight 22
def bigSigma1 (x : Word) : Word := x.rotateRight 6 ^^^ x.rotateRight 11 ^^^ x.rotateRight 25
def smallSigma0 (x : Word) : Word := x.rotateRight 7 ^^^ x.rotateRight 18 ^^^ (x >>> 3)
def smallSigma1 (x : Word) : Word := x.rotateRight 17 ^^^ x.rotateRight 19 ^^^ (x >>> 10)

def H (i : Nat) : Word := rootBits 2 (primes.getD i 0)
def K (t : Nat) : Word := rootBits 3 (primes.getD t 0)

/-! ## The hash -/

/-- The eight words of a hash value, and the eight working variables. -/
structure Vars where
  a : Word
  b : Word
  c : Word
  d : Word
  e : Word
  f : Word
  g : Word
  h : Word
deriving DecidableEq

def initial : Vars := { a := H 0, b := H 1, c := H 2, d := H 3, e := H 4, f := H 5, g := H 6, h := H 7 }

/-- Word `t` of a block. -/
def messageWord (block : List UInt8) (t : Nat) : Word := .ofNat 32 (unbe (slice block (4 * t) 4))

/-- The message schedule of the words of a block. -/
def W (m : Nat → Word) (t : Nat) : Word :=
  if t < 16 then m t
  else smallSigma1 (W m (t - 2)) + W m (t - 7) + smallSigma0 (W m (t - 15)) + W m (t - 16)
termination_by t

theorem W_of_lt {m : Nat → Word} {t : Nat} (h : t < 16) : W m t = m t := by rw [W, if_pos h]

theorem W_of_le {m : Nat → Word} {t : Nat} (h : 16 ≤ t) :
    W m t = smallSigma1 (W m (t - 2)) + W m (t - 7) + smallSigma0 (W m (t - 15)) + W m (t - 16) := by
  rw [W, if_neg (Nat.not_lt.mpr h)]

/-- One round, with its constant and its word of the schedule. -/
def step (k w : Word) (s : Vars) : Vars :=
  let t₁ := s.h + bigSigma1 s.e + ch s.e s.f s.g + k + w
  let t₂ := bigSigma0 s.a + maj s.a s.b s.c
  { a := t₁ + t₂, b := s.a, c := s.b, d := s.c, e := s.d + t₁, f := s.e, g := s.f, h := s.g }

/-- The first rounds, as many. -/
def rounds (w : Nat → Word) : Nat → Vars → Vars
  | 0, s => s
  | t + 1, s => step (K t) (w t) (rounds w t s)

/-- The next hash value. -/
def compress (v : Vars) (block : List UInt8) : Vars :=
  let s := rounds (W (messageWord block)) 64 v
  { a := s.a + v.a, b := s.b + v.b, c := s.c + v.c, d := s.d + v.d, e := s.e + v.e, f := s.f + v.f,
    g := s.g + v.g, h := s.h + v.h }

/-- The zero bytes that complete a block behind a message of this length, one byte and the
length field. -/
def zeroCount (len : Nat) : Nat := (119 - len % 64) % 64

/-- The bit `1`, zeros, and the length in bits. -/
def padding (len : Nat) : List UInt8 := [0x80] ++ List.replicate (zeroCount len) 0 ++ be 8 (8 * len)

def pad (m : List UInt8) : List UInt8 := m ++ padding m.length

def digest (v : Vars) : List UInt8 := ([v.a, v.b, v.c, v.d, v.e, v.f, v.g, v.h].map fun x => be 4 x.toNat).flatten

def sha256 (m : List UInt8) : List UInt8 := digest ((chunks 64 (pad m)).foldl compress initial)

theorem length_sha256 (m : List UInt8) : (sha256 m).length = 32 := by
  simp [sha256, digest]

/-! ## The padding -/

/-- The zeros are the fewest that make whole blocks. -/
theorem zeroCount_spec (len : Nat) :
    (len + 1 + zeroCount len) % 64 = 56 ∧ ∀ k, (len + 1 + k) % 64 = 56 → zeroCount len ≤ k := by
  rw [zeroCount]
  refine ⟨by omega, fun k hk => by omega⟩

theorem length_padding (len : Nat) : (padding len).length = 9 + zeroCount len := by
  simp only [padding, List.length_append, List.length_singleton, List.length_replicate, length_be]
  omega

/-- The blocks of a padded message: those of the message, and those of its rest with the padding. -/
theorem chunks_pad (m : List UInt8) :
    chunks 64 (pad m) = chunks 64 m ++ chunks 64 (rest 64 m ++ padding m.length) :=
  chunks_rest_append (by decide) m _

/-- A rest that leaves room for the length makes one block. -/
theorem chunks_rest_one {r : List UInt8} {len : Nat} (hr : r.length = len % 64) (h : len % 64 < 56) :
    chunks 64 (r ++ padding len) = [r ++ [0x80] ++ List.replicate (55 - r.length) 0 ++ be 8 (8 * len)] := by
  have hzeros : zeroCount len = 55 - r.length := by
    rw [zeroCount]
    omega
  have hblock : (r ++ padding len).length = 64 := by
    rw [List.length_append, length_padding]
    omega
  have hone := chunks_piece (by decide) [] hblock
  have hnil : ([] : List UInt8).length < 64 := by decide
  rw [List.append_nil, chunks_short hnil] at hone
  rw [hone, padding, hzeros]
  simp only [List.append_assoc]

/-- Any other makes two. -/
theorem chunks_rest_two {r : List UInt8} {len : Nat} (hr : r.length = len % 64) (h : 56 ≤ len % 64) :
    chunks 64 (r ++ padding len) =
      [r ++ [0x80] ++ List.replicate (63 - r.length) 0, List.replicate 56 0 ++ be 8 (8 * len)] := by
  have hzeros : zeroCount len = (63 - r.length) + 56 := by
    rw [zeroCount]
    omega
  have hfirst : (r ++ [0x80] ++ List.replicate (63 - r.length) (0 : UInt8)).length = 64 := by
    rw [List.length_append, List.length_append, List.length_singleton, List.length_replicate]
    omega
  have hsecond : (List.replicate 56 (0 : UInt8) ++ be 8 (8 * len)).length = 64 := by
    rw [List.length_append, List.length_replicate, length_be]
  have hsplit : r ++ padding len = (r ++ [0x80] ++ List.replicate (63 - r.length) 0) ++
      ((List.replicate 56 0 ++ be 8 (8 * len)) ++ []) := by
    rw [padding, hzeros, ← List.replicate_append_replicate]
    simp only [List.append_assoc, List.append_nil]
  have hnil : ([] : List UInt8).length < 64 := by decide
  rw [hsplit, chunks_piece (by decide) _ hfirst, chunks_piece (by decide) _ hsecond, chunks_short hnil]

end Yuva.Sha2
