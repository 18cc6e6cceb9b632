/-
# `Yuva.Mem.Bakeoff` — the activation gate of the learned policy

`tb-encode/src/bakeoff.rs`: the survival label of a forget decision, the
empirical-Bernstein lower bound on a mean reward, the smoothness floor over the feature
grid, the value bounds built from them and the verdict of the gate.

The source computes in `i128` with saturating operators and narrows at the end.  The two
divisions and the root are the only operations that round; what each of them returns is
stated here against the exact quotient and the exact root:

    floor_div_i128    ⌊num / den⌋        floorDivI128_eq
    ceil_div_i128     ⌈num / den⌉        ceilDivI128_eq
    isqrt_ceil_i128   ⌈√x⌉               isqrtCeilI128_eq
-/
import Yuva.Mem.Score
import Mathlib.Data.Rat.Floor
import Mathlib.Analysis.Real.Sqrt
import Mathlib.Tactic.Positivity
import Mathlib.Tactic.Linarith

namespace Yuva.Mem.Bakeoff

open Yuva.Machine

/-! ## The integer helpers -/

/-- Towards `-∞`, where `/` truncates towards zero. -/
def floorDivI128 (num den : Int) : Int :=
  if den = 0 then 0
  else
    let q := num.tdiv den
    let r := num.tmod den
    if r ≠ 0 ∧ decide (r < 0) ≠ decide (den < 0) then q - 1 else q

/-- Towards `+∞`. -/
def ceilDivI128 (num den : Int) : Int :=
  if den = 0 then 0
  else
    let q := num.tdiv den
    let r := num.tmod den
    if r ≠ 0 ∧ decide (r < 0) = decide (den < 0) then q + 1 else q

/-- The narrowing before a return. -/
def clampI128ToI64 (x : Int) : Int := satI 64 x

/-- `while bit * bit <= x && bit < 1 << 62 { bit <<= 1 }`, on the exponent of `bit`. -/
def highestBit (x : Int) : Nat → Nat → Nat
  | 0, k => k
  | fuel + 1, k =>
    if satI 128 (2 ^ k * 2 ^ k) ≤ x ∧ (2 : Int) ^ k < 2 ^ 62 then highestBit x fuel (k + 1) else k

/-- One turn of the refining loop: keep the bit when its square still fits. -/
def tryBit (x : Int) (k : Nat) (res : Int) : Int :=
  let cand := res + 2 ^ k
  if satI 128 (cand * cand) ≤ x then cand else res

/-- `while b > 0 { …; b >>= 1 }`, from `b = 2 ^ k` down. -/
def refineRoot (x : Int) : Nat → Int → Int
  | 0, res => tryBit x 0 res
  | k + 1, res => refineRoot x k (tryBit x (k + 1) res)

/-- The least integer whose square reaches `x`. -/
def isqrtCeilI128 (x : Int) : Int :=
  if x ≤ 0 then 0
  else
    let res := refineRoot x (highestBit x 62 0) 0
    let res := if satI 128 (res * res) < x then res + 1 else res
    clampI128ToI64 res

/-! ## The survival label -/

inductive SurvivalLabel where
  /-- Touched again inside the window: the forget was wrong. -/
  | negative
  /-- The window closed without a touch: the forget was right. -/
  | positive
  /-- The window is still open. -/
  | censored
deriving DecidableEq, Repr

def SurvivalLabel.isResolved : SurvivalLabel → Bool
  | .censored => false
  | _ => true

/-- The label of a decision at `decisionTick`, seen from `nowTick`. -/
def survivalLabel (decisionTick nowTick : Nat) (firstReadTouchTick : Option Nat) (w : Nat) : SurvivalLabel :=
  let elapsed :=
    if nowTick - decisionTick ≥ w then SurvivalLabel.positive else SurvivalLabel.censored
  match firstReadTouchTick with
  | some t =>
    if t ≥ decisionTick then
      let reuseDist := t - decisionTick
      if reuseDist ≤ w then .negative else elapsed
    else elapsed
  | none => elapsed

/-! ## Rewards and constants -/

/-- The worst reward, the low edge of the policy band. -/
def Y_LO : Int := DEMOTE_BAND.1
/-- The best reward. -/
def Y_HI : Int := DEMOTE_BAND.2
/-- How much the mean reward may change per cell of the grid. -/
def LIPSCHITZ_L : Int := 64
def GRID_CELLS : Nat := 9
def MIN_RESOLVED_SUPPORT : Nat := 1
def MIN_OVERLAP_MASS : Nat := 1

/-! ## The empirical-Bernstein lower bound -/

/-- `2 / delta`, at least two. -/
def lnArg (deltaNum deltaDen : Nat) : Nat :=
  if deltaNum = 0 then 1 <<< 20
  else
    let v := satU 64 (2 * deltaDen) / deltaNum
    if v < 2 then 2 else v

/-- `ln (2 / delta)` in whole units, at least one. -/
def lnCeil (deltaNum deltaDen : Nat) : Int :=
  max (ceilDivI128 (lnFixed (lnArg deltaNum deltaDen)) 1000) 1

/-- `n * sum_sq - sum ^ 2` as the saturating operators leave it. -/
def varNum (sum sumSq n : Int) : Int :=
  let v := satI 128 (satI 128 (n * sumSq) - satI 128 (sum * sum))
  if v < 0 then 0 else v

/-- The integer for `sqrt (2 * Var * ln / n)`. -/
def varPenalty (var lnCeil n : Int) : Int :=
  let varTermInner := (satI 128 (satI 128 (2 * var) * lnCeil)).tdiv (max n 1)
  isqrtCeilI128 (max varTermInner 0)

/-- The integer for `7 * range * ln / (3 * (n - 1))`. -/
def rangePenalty (range lnCeil n : Int) : Int :=
  let num := satI 128 (satI 128 (7 * satI 64 |range|) * lnCeil)
  let den := satI 128 (3 * max (n - 1) 1)
  ceilDivI128 num den

/-- The lower bound on the mean of `n` rewards with the given sum and sum of squares. -/
def ebLowerBound (sum sumSq : Int) (n : Nat) (range : Int) (deltaNum deltaDen : Nat) (lo : Int) : Int :=
  if n = 0 then lo
  else
    let nI : Int := n
    let mean := floorDivI128 sum nI
    if n = 1 then satI 64 (wrapI 64 mean - satI 64 |range|)
    else
      let nSq := satI 128 (nI * nI)
      let var := ceilDivI128 (varNum sum sumSq nI) nSq
      let ln := lnCeil deltaNum deltaDen
      let bound := satI 128 (satI 128 (mean - varPenalty var ln nI) - rangePenalty range ln nI)
      max (clampI128ToI64 bound) lo

/-! ## The value bounds -/

/-- The explored reward of each cell, where there is one. -/
abbrev Grid := Vector (Option (BitVec 64)) GRID_CELLS

/-- The inner sweep: the largest `reward - L * distance` over the anchors. -/
def nearestAnchor (grid : Grid) (c : Fin GRID_CELLS) : Option Int :=
  (List.finRange GRID_CELLS).foldl (fun best a =>
    match grid[a] with
    | some r =>
      let dist : Int := ((a : Int) - c).natAbs
      let cand := satI 64 (r.toInt - satI 64 (LIPSCHITZ_L * dist))
      match best with
      | some b => if b ≥ cand then some b else some cand
      | none => some cand
    | none => best) none

/-- The floor under the rewards of one cell. -/
def cellFloor (grid : Grid) (c : Fin GRID_CELLS) : Int :=
  match grid[c] with
  | some r => r.toInt
  | none => max ((nearestAnchor grid c).getD Y_LO) Y_LO

/-- The average of the floors of the grid, rounded down. -/
def smoothnessFloorMean (grid : Grid) : Int :=
  let total := (List.finRange GRID_CELLS).foldl (fun total c => satI 128 (total + cellFloor grid c)) 0
  clampI128ToI64 (floorDivI128 total GRID_CELLS)

/-- The bound the gate puts under the value of the learned policy. -/
def valueLowerBound (overlapSum overlapSumSq : Int) (nOverlap nTotal : Nat) (grid : Grid)
    (deltaNum deltaDen : Nat) : Int :=
  if nTotal = 0 then Y_LO
  else
    let range := satI 64 (Y_HI - Y_LO)
    let overlapLb := ebLowerBound overlapSum overlapSumSq nOverlap range deltaNum deltaDen Y_LO
    let nNoOverlap := nTotal - nOverlap
    let noOverlapFloor := smoothnessFloorMean grid
    let num := satI 128 (satI 128 (overlapLb * nOverlap) + satI 128 (noOverlapFloor * nNoOverlap))
    let v := clampI128ToI64 (floorDivI128 num nTotal)
    max Y_LO (min v Y_HI)

/-- The bound it puts over the value of the heuristic. -/
def valueUpperHeuristic (heurSum : Int) (nResolved nTotal : Nat) : Int :=
  if nTotal = 0 then Y_HI
  else
    let resolvedMean := if nResolved = 0 then Y_HI else clampI128ToI64 (ceilDivI128 heurSum nResolved)
    let nNo := nTotal - nResolved
    let num := satI 128 (satI 128 (resolvedMean * nResolved) + satI 128 (Y_HI * nNo))
    let v := clampI128ToI64 (ceilDivI128 num nTotal)
    max Y_LO (min v Y_HI)

inductive GateVerdict where
  | cleared
  | notMet
  | notEvaluable
deriving DecidableEq, Repr

/-- The one-shot gate: the worst case of the policy against the best of the heuristic. -/
def gateClears (vloKan vhiHeur margin : Int) (nResolved overlapMass : Nat) : GateVerdict :=
  if nResolved < MIN_RESOLVED_SUPPORT ∨ overlapMass < MIN_OVERLAP_MASS then .notEvaluable
  else if satI 128 (vloKan - vhiHeur) ≥ margin then .cleared
  else .notMet

/-! ## What the helpers return -/

theorem floorDivI128_ediv (num : Int) {den : Int} (hden : 0 < den) : floorDivI128 num den = num / den := by
  have hmod := Int.emod_nonneg num hden.ne'
  have hlt := Int.emod_lt_of_pos num hden
  have hsign : den.sign = 1 := Int.sign_eq_one_of_pos hden
  simp only [floorDivI128, Int.tdiv_eq_ediv, Int.tmod_eq_emod, Int.dvd_iff_emod_eq_zero, hsign]
  split_ifs <;> grind

theorem ceilDivI128_ediv (num : Int) {den : Int} (hden : 0 < den) : ceilDivI128 num den = -(-num / den) := by
  have hmod := Int.emod_nonneg num hden.ne'
  have hlt := Int.emod_lt_of_pos num hden
  have hsign : den.sign = 1 := Int.sign_eq_one_of_pos hden
  simp only [ceilDivI128, Int.tdiv_eq_ediv, Int.tmod_eq_emod, Int.dvd_iff_emod_eq_zero, hsign, Int.neg_ediv]
  split_ifs <;> grind

theorem floorDivI128_eq (num : Int) {den : Nat} (hden : 0 < den) :
    floorDivI128 num den = ⌊(num : ℚ) / (den : ℚ)⌋ := by
  rw [floorDivI128_ediv num (by exact_mod_cast hden), Rat.floor_intCast_div_natCast]

theorem ceilDivI128_eq (num : Int) {den : Nat} (hden : 0 < den) :
    ceilDivI128 num den = ⌈(num : ℚ) / (den : ℚ)⌉ := by
  rw [ceilDivI128_ediv num (by exact_mod_cast hden), Rat.ceil_intCast_div_natCast]

theorem sat128_eq {z : Int} (hlo : -2 ^ 127 ≤ z) (hhi : z < 2 ^ 127) : satI 128 z = z :=
  satI_of_mem hlo hhi

theorem clampI128ToI64_eq {z : Int} (hlo : -2 ^ 63 ≤ z) (hhi : z < 2 ^ 63) : clampI128ToI64 z = z :=
  satI_of_mem hlo hhi

theorem sat128_sq {r : Int} (hr : 0 ≤ r) (hlt : r ≤ 2 ^ 63) : satI 128 (r * r) = r * r :=
  sat128_eq (by nlinarith) (by nlinarith)

section Root

variable {x : Int}

theorem highestBit_spec : ∀ fuel k : Nat, k ≤ 62 → 62 ≤ fuel + k →
    highestBit x fuel k ≤ 62 ∧
      (x < 2 ^ highestBit x fuel k * 2 ^ highestBit x fuel k ∨ highestBit x fuel k = 62)
  | 0, k, hle, hge => ⟨hle, .inr (by rw [highestBit]; omega)⟩
  | fuel + 1, k, hle, hge => by
    rw [highestBit]
    split_ifs with h
    · have hk : k < 62 := (pow_lt_pow_iff_right₀ (by decide : (1 : Int) < 2)).1 h.2
      exact highestBit_spec fuel (k + 1) hk (by omega)
    · refine ⟨hle, ?_⟩
      by_cases hk : (2 : Int) ^ k < 2 ^ 62
      · left
        rw [sat128_sq (by positivity) (by omega)] at h
        exact lt_of_not_ge fun hx => h ⟨hx, hk⟩
      · right
        have hge : 62 ≤ k := (pow_le_pow_iff_right₀ (by decide : (1 : Int) < 2)).1 (not_lt.1 hk)
        omega

/-- What a turn of the refining loop preserves, the bracket halved. -/
theorem tryBit_spec {k : Nat} {res : Int} (hres : 0 ≤ res) (hbelow : res * res ≤ x)
    (habove : x < (res + 2 ^ (k + 1)) * (res + 2 ^ (k + 1))) (hfit : res + 2 ^ (k + 1) ≤ 2 ^ 63) :
    0 ≤ tryBit x k res ∧ tryBit x k res * tryBit x k res ≤ x ∧
      x < (tryBit x k res + 2 ^ k) * (tryBit x k res + 2 ^ k) ∧ tryBit x k res + 2 ^ k ≤ 2 ^ 63 := by
  have hpos : (0 : Int) < 2 ^ k := by positivity
  rw [pow_succ] at habove hfit
  simp only [tryBit, sat128_sq (show 0 ≤ res + 2 ^ k by omega) (by omega)]
  split_ifs with h
  · exact ⟨by omega, h, by rw [add_assoc, ← mul_two]; exact habove, by omega⟩
  · exact ⟨hres, hbelow, lt_of_not_ge h, by omega⟩

theorem tryBit_nonneg (k : Nat) {res : Int} (hres : 0 ≤ res) : 0 ≤ tryBit x k res := by
  have hpos : (0 : Int) < 2 ^ k := by positivity
  simp only [tryBit]
  split_ifs <;> omega

theorem refineRoot_spec : ∀ (k : Nat) (res : Int), 0 ≤ res → res * res ≤ x →
    x < (res + 2 ^ (k + 1)) * (res + 2 ^ (k + 1)) → res + 2 ^ (k + 1) ≤ 2 ^ 63 →
    0 ≤ refineRoot x k res ∧ refineRoot x k res * refineRoot x k res ≤ x ∧
      x < (refineRoot x k res + 1) * (refineRoot x k res + 1)
  | 0, res, hres, hbelow, habove, hfit => by
    obtain ⟨h0, hle, hlt, -⟩ := tryBit_spec hres hbelow habove hfit
    exact ⟨h0, hle, hlt⟩
  | k + 1, res, hres, hbelow, habove, hfit => by
    obtain ⟨h0, hle, hlt, hfit'⟩ := tryBit_spec hres hbelow habove hfit
    exact refineRoot_spec k _ h0 hle hlt hfit'

theorem refineRoot_nonneg : ∀ (k : Nat) (res : Int), 0 ≤ res → 0 ≤ refineRoot x k res
  | 0, _, hres => tryBit_nonneg 0 hres
  | k + 1, _, hres => refineRoot_nonneg k _ (tryBit_nonneg (k + 1) hres)

theorem isqrtCeilI128_nonneg (x : Int) : 0 ≤ isqrtCeilI128 x := by
  have hroot := refineRoot_nonneg (x := x) (highestBit x 62 0) 0 le_rfl
  have hclamp : ∀ z : Int, 0 ≤ z → 0 ≤ clampI128ToI64 z := by
    intro z hz
    rw [clampI128ToI64, satI]
    omega
  rw [isqrtCeilI128]
  dsimp only
  split_ifs
  · exact le_rfl
  · exact hclamp _ (by omega)
  · exact hclamp _ hroot

/-- The root is reached, and by nothing smaller. -/
theorem isqrtCeilI128_least (hx : x < 2 ^ 125) :
    x ≤ isqrtCeilI128 x * isqrtCeilI128 x ∧
      ∀ s : Int, 0 ≤ s → x ≤ s * s → isqrtCeilI128 x ≤ s := by
  rw [isqrtCeilI128]
  split_ifs with hpos
  · exact ⟨by omega, fun s hs _ => hs⟩
  obtain ⟨hbit, hcover⟩ := highestBit_spec (x := x) 62 0 (by decide) (by decide)
  generalize highestBit x 62 0 = b at hbit hcover
  have hpow : (2 : Int) ^ (b + 1) ≤ 2 ^ 63 := pow_le_pow_right₀ (by decide) (by omega)
  have habove : x < (0 + 2 ^ (b + 1)) * (0 + 2 ^ (b + 1)) := by
    rw [zero_add, pow_succ]
    rcases hcover with hcover | rfl
    · nlinarith [pow_pos (show (0 : Int) < 2 by decide) b]
    · omega
  obtain ⟨h0, hle, hlt⟩ := refineRoot_spec b 0 le_rfl (by omega) habove (by omega)
  generalize refineRoot x b 0 = r at h0 hle hlt
  have hsmall : r < 2 ^ 63 - 1 := by nlinarith
  simp only [sat128_sq h0 (show r ≤ 2 ^ 63 by omega)]
  split_ifs with hexact
  · rw [clampI128ToI64_eq (by omega) (by omega)]
    exact ⟨hlt.le, fun s hs hsx => by nlinarith⟩
  · rw [clampI128ToI64_eq (by omega) (by omega)]
    exact ⟨by omega, fun s hs hsx => by nlinarith⟩

theorem isqrtCeilI128_eq (hx : x < 2 ^ 125) : isqrtCeilI128 x = ⌈√(x : ℝ)⌉ := by
  obtain ⟨hreach, hleast⟩ := isqrtCeilI128_least hx
  have hnonneg := isqrtCeilI128_nonneg x
  apply le_antisymm
  · have hceil : (0 : ℝ) ≤ ⌈√(x : ℝ)⌉ := (Real.sqrt_nonneg _).trans (Int.le_ceil _)
    refine hleast _ (by exact_mod_cast hceil) ?_
    have hsq : (x : ℝ) ≤ ⌈√(x : ℝ)⌉ * ⌈√(x : ℝ)⌉ := by
      rw [← pow_two]
      exact (Real.sqrt_le_left hceil).1 (Int.le_ceil _)
    exact_mod_cast hsq
  · rw [Int.ceil_le, Real.sqrt_le_left (by exact_mod_cast hnonneg), pow_two]
    exact_mod_cast hreach

end Root

end Yuva.Mem.Bakeoff
