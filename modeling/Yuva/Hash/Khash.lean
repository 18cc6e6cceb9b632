/-
# `Yuva.Hash.Khash` — BLAKE2s

`tb-encode/src/khash.rs`: the compression function, the driver over an optional
key, and the two entry points `khash` (keyed) and `uhash` (unkeyed).  Words are
`BitVec 32`, so every addition wraps as the source's does.
-/
import Yuva.Lib.Bytes

namespace Yuva.Hash

open Yuva.Bytes

def BLOCK_LEN : Nat := 64
def KHASH_KEY_LEN : Nat := 32
def KHASH_TAG_LEN : Nat := 32

abbrev Word := BitVec 32

/-- A key or a digest. -/
abbrev Bytes32 := Block 32

def IV : Vector Word 8 :=
  #v[0x6A09E667, 0xBB67AE85, 0x3C6EF372, 0xA54FF53A, 0x510E527F, 0x9B05688C, 0x1F83D9AB, 0x5BE0CD19]

/-- The order in which each round reads the message words. -/
def SIGMA : List (Vector (Fin 16) 16) :=
  [#v[0, 1, 2, 3, 4, 5, 6, 7, 8, 9, 10, 11, 12, 13, 14, 15],
   #v[14, 10, 4, 8, 9, 15, 13, 6, 1, 12, 0, 2, 11, 7, 5, 3],
   #v[11, 8, 12, 0, 5, 2, 15, 13, 10, 14, 3, 6, 7, 1, 9, 4],
   #v[7, 9, 3, 1, 13, 12, 11, 14, 2, 6, 5, 10, 4, 0, 15, 8],
   #v[9, 0, 5, 7, 2, 4, 10, 15, 14, 1, 11, 12, 6, 8, 3, 13],
   #v[2, 12, 6, 10, 0, 11, 8, 3, 4, 13, 7, 5, 15, 14, 1, 9],
   #v[12, 5, 1, 15, 14, 13, 4, 10, 0, 7, 6, 3, 9, 2, 8, 11],
   #v[13, 11, 7, 14, 12, 1, 3, 9, 5, 0, 15, 4, 8, 6, 2, 10],
   #v[6, 15, 14, 9, 11, 3, 0, 8, 12, 2, 13, 7, 1, 4, 10, 5],
   #v[10, 2, 8, 4, 7, 6, 1, 5, 15, 11, 9, 14, 3, 12, 13, 0]]

/-- The mixing function: two message words into four lanes. -/
def g (v : Vector Word 16) (a b c d : Fin 16) (x y : Word) : Vector Word 16 :=
  let v := v.set a (v[a] + v[b] + x)
  let v := v.set d ((v[d] ^^^ v[a]).rotateRight 16)
  let v := v.set c (v[c] + v[d])
  let v := v.set b ((v[b] ^^^ v[c]).rotateRight 12)
  let v := v.set a (v[a] + v[b] + y)
  let v := v.set d ((v[d] ^^^ v[a]).rotateRight 8)
  let v := v.set c (v[c] + v[d])
  v.set b ((v[b] ^^^ v[c]).rotateRight 7)

/-- One round: the four columns, then the four diagonals. -/
def round (m : Vector Word 16) (v : Vector Word 16) (s : Vector (Fin 16) 16) : Vector Word 16 :=
  let v := g v 0 4 8 12 m[s[0]] m[s[1]]
  let v := g v 1 5 9 13 m[s[2]] m[s[3]]
  let v := g v 2 6 10 14 m[s[4]] m[s[5]]
  let v := g v 3 7 11 15 m[s[6]] m[s[7]]
  let v := g v 0 5 10 15 m[s[8]] m[s[9]]
  let v := g v 1 6 11 12 m[s[10]] m[s[11]]
  let v := g v 2 7 8 13 m[s[12]] m[s[13]]
  g v 3 4 9 14 m[s[14]] m[s[15]]

/-- A block as sixteen little-endian words. -/
def blockWords (block : List UInt8) : Vector Word 16 :=
  Vector.ofFn fun w => BitVec.ofNat 32 (unle (slice block (4 * w.val) 4))

/-- Fold one block into the state under the offset counter `t`; `last` inverts `v[14]`. -/
def compress (h : Vector Word 8) (block : List UInt8) (t : BitVec 64) (last : Bool) :
    Vector Word 8 :=
  let v : Vector Word 16 := h ++ IV
  let v := v.set 12 (v[12] ^^^ t.setWidth 32)
  let v := v.set 13 (v[13] ^^^ (t >>> 32).setWidth 32)
  let v := if last then v.set 14 (~~~v[14]) else v
  let v := SIGMA.foldl (round (blockWords block)) v
  Vector.ofFn fun j => h[j] ^^^ (v[j.val] ^^^ v[j.val + 8])

/-- The working vector that `compress` starts the rounds from. -/
def startVector (h : Vector Word 8) (t : BitVec 64) (last : Bool) : Vector Word 16 :=
  let v : Vector Word 16 := h ++ IV
  let v := v.set 12 (v[12] ^^^ t.setWidth 32)
  let v := v.set 13 (v[13] ^^^ (t >>> 32).setWidth 32)
  if last then v.set 14 (~~~v[14]) else v

def digestBytes (h : Vector Word 8) : Bytes32 :=
  ⟨(h.toList.map fun w => le 4 w.toNat).flatten, by
    rw [length_flatten_of_eq (k := 4)]
    · simp
    · intro f hf
      obtain ⟨w, -, rfl⟩ := List.mem_map.mp hf
      exact length_le 4 _⟩

/-- A partial block filled with zeros. -/
def padBlock (bytes : List UInt8) : List UInt8 := bytes ++ List.replicate (BLOCK_LEN - bytes.length) 0

/-- The loop over every block but the last.  Each pass takes 64 bytes, so the
message's length bounds their number. -/
def absorb : Nat → Vector Word 8 → BitVec 64 → List UInt8 → Vector Word 8 × BitVec 64 × List UInt8
  | 0, h, t, msg => (h, t, msg)
  | fuel + 1, h, t, msg =>
      if BLOCK_LEN < msg.length then
        let t := t + BitVec.ofNat 64 BLOCK_LEN
        absorb fuel (compress h (msg.take BLOCK_LEN) t false) t (msg.drop BLOCK_LEN)
      else (h, t, msg)

/-- The blocks of the message, the last one final and with the true byte count. -/
def finish (h : Vector Word 8) (t : BitVec 64) (msg : List UInt8) : Bytes32 :=
  let (h, t, rest) := absorb msg.length h t msg
  digestBytes (compress h (padBlock rest) (t + BitVec.ofNat 64 rest.length) true)

def blake2s (key : Option Bytes32) (msg : List UInt8) : Bytes32 :=
  match key with
  | some k =>
      let h := IV.set 0 (IV[0] ^^^ (0x01010000 ^^^ (BitVec.ofNat 32 KHASH_KEY_LEN <<< 8) ^^^
        BitVec.ofNat 32 KHASH_TAG_LEN))
      let t := BitVec.ofNat 64 BLOCK_LEN
      let h := compress h (padBlock k.val) t msg.isEmpty
      if msg.isEmpty then digestBytes h else finish h t msg
  | none =>
      let h := IV.set 0 (IV[0] ^^^ (0x01010000 ^^^ BitVec.ofNat 32 KHASH_TAG_LEN))
      if msg.isEmpty then digestBytes (compress h (padBlock []) 0 true) else finish h 0 msg

def khash (key : Bytes32) (msg : List UInt8) : Bytes32 := blake2s (some key) msg

def uhash (msg : List UInt8) : Bytes32 := blake2s none msg

/-- The state that the first call starts from. -/
def initialState (key : Option Bytes32) : Vector Word 8 :=
  match key with
  | some _ => IV.set 0 (IV[0] ^^^ (0x01010000 ^^^ (BitVec.ofNat 32 KHASH_KEY_LEN <<< 8) ^^^
      BitVec.ofNat 32 KHASH_TAG_LEN))
  | none => IV.set 0 (IV[0] ^^^ (0x01010000 ^^^ BitVec.ofNat 32 KHASH_TAG_LEN))

end Yuva.Hash
