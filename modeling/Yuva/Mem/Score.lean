/-
# `Yuva.Mem.Score` — the fixed-point scores

The integer leaves the memory organ ranks with: `tb-encode/src/memscore.rs`,
`recall.rs` (`bm25_idf`), `kancell.rs`, `exp.rs` (`quantize_feature`) and
`explore.rs`.  Signed quantities are `Int` wrapped or saturated where the source's
`i64` and `i32` are.
-/
import Yuva.Lib.Machine

namespace Yuva.Mem

open Yuva.Machine

/-! ## Activation -/

/-- Every normalised score component lies in `[0, SCALE]`. -/
def SCALE : Int := 1000
/-- `ln 2` in units of `SCALE`. -/
def LN2_FIXED : Int := 693
def SKILL_XFORM_SEED : BitVec 64 := 0x9E3779B97F4A7C15
def SKILL_XFORM_MUL : BitVec 64 := 0x100000001B3

/-- `log2 x` in units of `SCALE`: the leading-bit position, then a linear
interpolation up to the next power of two. -/
def log2Fixed (x : Nat) : Int :=
  if x ≤ 1 then 0
  else
    let ip := Nat.log2 x
    let pow := 2 ^ ip
    let frac := (wrapI 64 (wrapI 64 (x - pow : Nat) * SCALE)).tdiv (wrapI 64 (pow : Nat))
    ip * SCALE + frac

def lnFixed (x : Nat) : Int := (log2Fixed x * LN2_FIXED).tdiv SCALE

/-- Base-level activation: grows with the access count, decays with age. -/
def blaRaw (count age : Nat) : Int :=
  let freq := lnFixed (2 * (count + 1))
  let recency := (lnFixed (wrapU 64 (age + 1))).tdiv 2
  freq - recency

/-- What a skill with this body answers on an input. -/
def skillTransform (body input : BitVec 64) : BitVec 64 :=
  let h := body ^^^ SKILL_XFORM_SEED
  let h := h.rotateLeft (input &&& 63).toNat
  let h := h ^^^ (input * SKILL_XFORM_MUL)
  h.rotateLeft 17 ^^^ (body >>> 7)

/-- `vals[i]` placed between the least and the greatest of `vals`; a component on
which all agree contributes nothing. -/
def minmax (vals : List Int) (i : Nat) : Int :=
  let lo := vals.foldl (fun lo v => if v < lo then v else lo) (vals.headD 0)
  let hi := vals.foldl (fun hi v => if v > hi then v else hi) (vals.headD 0)
  if hi = lo then 0
  else (wrapI 64 (wrapI 64 (vals.getD i 0 - lo) * SCALE)).tdiv (wrapI 64 (hi - lo))

/-- Inverse document frequency, never negative; `df` is clamped to `[1, n]`. -/
def bm25Idf (df nDocs : Nat) : Int :=
  let n := max nDocs 1
  let d := min (max df 1) n
  max (lnFixed (wrapU 64 (2 * n + 2)) - lnFixed (wrapU 64 (2 * d + 1))) 0

/-! ## The policy spline -/

def KAN_KNOTS : Nat := 9
def KAN_FEATURES : Nat := 4
def GRID_LO : Int := 0
def GRID_STEP_LOG2 : Nat := 7
/-- The band the final clamp lands in. -/
def DEMOTE_BAND : Int × Int := (-34000, 34000)

abbrev Knots := Vector (BitVec 16) KAN_KNOTS
abbrev KnotTable := Vector Knots KAN_FEATURES
/-- A quantised feature vector. -/
abbrev Feats := Vector (BitVec 32) KAN_FEATURES

/-- The policy table the kernel ships. -/
def KAN_TABLE : KnotTable :=
  #v[#v[4000, 3500, 3000, 2400, 1800, 1200, 600, 100, -400],
     #v[-400, 100, 600, 1200, 1800, 2400, 3000, 3500, 4000],
     #v[200, 200, 150, 150, 100, 100, 50, 50, 0],
     #v[0, 0, 0, 0, 0, 0, 0, 0, 0]]

def KAN_BIAS : Int := 0
def KAN_FLAG_TERMS : Int := 0

/-- The piecewise-linear interpolant at `x`, clamped to the grid first; the last
grid point belongs to the last segment. -/
def kanSplineEval (knots : Knots) (x gridLo : Int) (gridStepLog2 : Nat) : Int :=
  let step := wrapI 32 (2 ^ gridStepLog2)
  let span := satI 32 (step * (KAN_KNOTS - 1 : Nat))
  let gridHi := satI 32 (gridLo + span)
  let xc := if x < gridLo then gridLo else if x > gridHi then gridHi else x
  let off := wrapI 32 (xc - gridLo)
  let seg := min (off >>> gridStepLog2).toNat (KAN_KNOTS - 2)
  let y0 := (knots.toList.getD seg 0).toInt
  let y1 := (knots.toList.getD (seg + 1) 0).toInt
  let segLo := satI 32 (gridLo + satI 32 (seg * step))
  let frac := wrapI 32 (xc - segLo)
  let dy := satI 32 (y1 - y0)
  let interp := satI 32 (dy * frac) >>> gridStepLog2
  satI 32 (y0 + interp)

/-- The additive score: bias, the four splines and the flag terms, clamped. -/
def kanScore (table : KnotTable) (feats : Feats) (flagTerms bias : Int) : Int :=
  let acc := (List.finRange KAN_FEATURES).foldl
    (fun acc j => satI 64 (acc + kanSplineEval table[j] feats[j].toInt GRID_LO GRID_STEP_LOG2)) bias
  let acc := satI 64 (acc + flagTerms)
  if acc < DEMOTE_BAND.1 then DEMOTE_BAND.1
  else if acc > DEMOTE_BAND.2 then DEMOTE_BAND.2
  else acc

-- `KAN_PROBE` and `KAN_PROBE_EXPECT` of the source.
example : [#v[0, 0, 0, 0], #v[512, 512, 512, 512], #v[1024, 1024, 1024, 1024], #v[128, 896, 256, 640]].map
    (fun x => kanScore KAN_TABLE x KAN_FLAG_TERMS KAN_BIAS) = [3800, 3700, 3600, 7150] := by
  decide +kernel

/-- A raw signal clamped onto the grid. -/
def quantizeFeature (raw : Int) : BitVec 32 :=
  let step := 2 ^ GRID_STEP_LOG2
  let span := satI 64 (step * (9 - 1))
  let hi := satI 64 (GRID_LO + span)
  BitVec.ofInt 32 (if raw < GRID_LO then GRID_LO else if raw > hi then hi else raw)

/-! ## The logging policy's propensity -/

def PROPENSITY_SCALE : Nat := 1000

/-- The probability, in thousandths, of the chosen action under an
epsilon-greedy policy over `m` cleared candidates. -/
def explorePropensityQ (epsNum epsDen m : Nat) (isGreedy : Bool) : Nat :=
  if m = 0 then 0
  else if m = 1 then PROPENSITY_SCALE
  else if epsDen = 0 ∨ epsNum = 0 then (if isGreedy then PROPENSITY_SCALE else 0)
  else
    let num := satU 64 (PROPENSITY_SCALE * epsNum)
    let den := satU 64 (epsDen * m)
    let otherQ := num / den
    let epsMass := num / epsDen
    let greedyQ := satU 64 (PROPENSITY_SCALE - epsMass + otherQ)
    min (if isGreedy then greedyQ else max otherQ 1) PROPENSITY_SCALE

end Yuva.Mem
