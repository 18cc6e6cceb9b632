/-
# `Yuva.Lms.Verify` — the LMS verifier

The kernel half of `tb-encode/src/lmsig.rs`.  SHA-256 is a parameter, an
arbitrary function from byte strings to 32 bytes; `Sha256::update` calls followed
by `finalize` are the hash of the concatenation.  Multi-byte integers are
big-endian.

A signature is `q | otstype | C | y[0..p] | lmstype | path[0..h]`; verification
recomputes the one-time public key from `(C, y)`, then the tree root from the
path, and compares it with the public root.
-/
import Yuva.Lib.Bytes
import Yuva.Lib.HeapTree

namespace Yuva.Lms

open Yuva.Bytes

/-- A digest, a tree node. -/
abbrev Node := { bytes : List UInt8 // bytes.length = 32 }

/-- The key identifier `I`. -/
abbrev Ident := { bytes : List UInt8 // bytes.length = 16 }

/-- The hash function. -/
abbrev Hash := List UInt8 → Node

def N : Nat := 32
def MAX_P : Nat := 67
def MAX_H : Nat := 10
def MSG_CAP : Nat := 256

def LMOTS_SHA256_N32_W4 : Nat := 3
def LMOTS_SHA256_N32_W8 : Nat := 4
def LMS_SHA256_M32_H5 : Nat := 5
def LMS_SHA256_M32_H10 : Nat := 6

def D_PBLC : Nat := 0x8080
def D_MESG : Nat := 0x8181
def D_LEAF : Nat := 0x8282
def D_INTR : Nat := 0x8383

/-- `(w, p, ls)` of a one-time type code. -/
def otsParams (otstype : Nat) : Option (Nat × Nat × Nat) :=
  if otstype = LMOTS_SHA256_N32_W4 then some (4, 67, 4)
  else if otstype = LMOTS_SHA256_N32_W8 then some (8, 34, 0)
  else none

/-- The tree height of a type code. -/
def lmsHeight (lmstype : Nat) : Option Nat :=
  if lmstype = LMS_SHA256_M32_H5 then some 5
  else if lmstype = LMS_SHA256_M32_H10 then some 10
  else none

/-- The `i`-th `w`-bit field of `s`, most significant first. -/
def coef (s : List UInt8) (i w : Nat) : Nat :=
  let perByte := 8 / w
  let byte := s.getD (i * w / 8) 0
  let shift := 8 - (w * (i % perByte) + w)
  byte.toNat >>> shift &&& (2 ^ w - 1)

/-- The Winternitz checksum, as a 16-bit word. -/
def cksm (q : List UInt8) (w ls : Nat) : Nat :=
  let u := 8 * N / w
  let maxc := 2 ^ w - 1
  let sum := (List.range u).foldl (fun sum i => (sum + (maxc - coef q i w)) % 2 ^ 32) 0
  (sum <<< ls) % 2 ^ 32 &&& 0xFFFF

/-- The coefficient string `Q || u16str(Cksm(Q))`. -/
def withCksm (qhash : List UInt8) (w ls : Nat) : List UInt8 := qhash ++ be 2 (cksm qhash w ls)

/-- Complete the chain of `y` from coefficient `a`. -/
def completeChain (H : Hash) (iId : Ident) (q i a maxj : Nat) (y : List UInt8) : List UInt8 :=
  (List.range' a (maxj - a)).foldl
    (fun tmp j => (H (iId.val ++ be 4 q ++ be 2 i ++ [UInt8.ofNat j] ++ tmp)).val) y

/-- The one-time public key candidate; `none` where the source returns `false`. -/
def otsKc (H : Hash) (iId : Ident) (q w p ls : Nat) (c : List UInt8) (y : List (List UInt8))
    (msg : List UInt8) : Option Node :=
  if p > MAX_P ∨ p = 0 ∨ y.length < p ∨ msg.length > MSG_CAP then none
  else
    let qhash := (H (iId.val ++ be 4 q ++ be 2 D_MESG ++ c ++ msg)).val
    let qc := withCksm qhash w ls
    let maxj := 2 ^ w - 1
    let zs := (List.range p).map fun i =>
      completeChain H iId q i (coef qc i w) maxj (y.getD i [])
    some (H (iId.val ++ be 4 q ++ be 2 D_PBLC ++ zs.flatten))

/-- The hash of an interior node. -/
def interior (H : Hash) (iId : Ident) (node : Nat) (left right : List UInt8) : List UInt8 :=
  (H (iId.val ++ be 4 node ++ be 2 D_INTR ++ left ++ right)).val

/-- The root a leaf's path leads to. -/
def lmsRoot (H : Hash) (iId : Ident) (q h : Nat) (kc : List UInt8) (path : List (List UInt8)) :
    List UInt8 :=
  let nodeNum := 2 ^ h + q
  let leaf := (H (iId.val ++ be 4 nodeNum ++ be 2 D_LEAF ++ kc)).val
  HeapTree.climb (interior H iId) (fun i => path.getD i []) nodeNum 0 leaf

/-- 32-byte equality without an early exit. -/
def ctEq (a b : List UInt8) : Bool :=
  (List.range N).foldl (fun acc i => acc ||| (a.getD i 0 ^^^ b.getD i 0)) 0 == 0

/-- The verify core, at explicit parameters. -/
def lmsVerifyParams (H : Hash) (root : Node) (iId : Ident) (msg sig : List UInt8)
    (w p ls h : Nat) : Bool :=
  if p = 0 ∨ p > MAX_P ∨ h > MAX_H ∨ h = 0 then false
  else if sig.length < 8 + N then false
  else
    let q := unbe (slice sig 0 4)
    if q ≥ 2 ^ h then false
    else
      let cOff := 8
      let yOff := cOff + N
      let lmstypeOff := yOff + N * p
      let pathOff := lmstypeOff + 4
      let total := pathOff + N * h
      if sig.length ≠ total then false
      else
        let c := slice sig cOff N
        let y := (List.range p).map fun i => slice sig (yOff + i * N) N
        let path := (List.range h).map fun i => slice sig (pathOff + i * N) N
        match otsKc H iId q w p ls c y msg with
        | none => false
        | some kc => ctEq (lmsRoot H iId q h kc.val path) root.val

/-- Parameters from the type codes, then the core. -/
def lmsVerify (H : Hash) (root : Node) (iId : Ident) (msg sig : List UInt8) : Bool :=
  if sig.length < 4 + 4 + N + 4 then false
  else
    match otsParams (unbe (slice sig 4 4)) with
    | none => false
    | some (w, p, ls) =>
        let lmstypeOff := 8 + N + N * p
        if sig.length < lmstypeOff + 4 then false
        else
          match lmsHeight (unbe (slice sig lmstypeOff 4)) with
          | none => false
          | some h => lmsVerifyParams H root iId msg sig w p ls h

/-! ## Facts about the leaves of the computation -/

theorem coef_le (s : List UInt8) (i w : Nat) : coef s i w ≤ 2 ^ w - 1 := Nat.and_le_right

theorem ctEq_self (a : List UInt8) : ctEq a a = true := by simp [ctEq]

theorem length_completeChain (H : Hash) (iId : Ident) (q i a maxj : Nat) {y : List UInt8}
    (hy : y.length = N) : (completeChain H iId q i a maxj y).length = N := by
  rw [completeChain]
  generalize List.range' a (maxj - a) = js
  induction js generalizing y with
  | nil => exact hy
  | cons j js ih => exact ih (H _).property

/-- A supported pair of type codes. -/
theorem otsParams_cases {otstype w p ls : Nat} (h : otsParams otstype = some (w, p, ls)) :
    (otstype = 3 ∧ w = 4 ∧ p = 67 ∧ ls = 4) ∨ (otstype = 4 ∧ w = 8 ∧ p = 34 ∧ ls = 0) := by
  simp only [otsParams] at h
  split at h
  · cases h
    exact .inl ⟨by assumption, rfl, rfl, rfl⟩
  · split at h
    · cases h
      exact .inr ⟨by assumption, rfl, rfl, rfl⟩
    · cases h

theorem lmsHeight_cases {lmstype h : Nat} (hh : lmsHeight lmstype = some h) :
    (lmstype = 5 ∧ h = 5) ∨ (lmstype = 6 ∧ h = 10) := by
  simp only [lmsHeight] at hh
  split at hh
  · cases hh
    exact .inl ⟨by assumption, rfl⟩
  · split at hh
    · cases hh
      exact .inr ⟨by assumption, rfl⟩
    · cases hh

end Yuva.Lms
