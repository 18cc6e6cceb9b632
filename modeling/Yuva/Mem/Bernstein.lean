/-
# `Yuva.Mem.Bernstein` — which way the Bernstein bound rounds

The bound on a mean of `n` rewards is

    mean - sqrt (2 * Var * ln / n) - 7 * range * ln / (3 * (n - 1)),

and the code keeps it sound by rounding the mean down and either penalty up.  It rounds
five times:

    mean      ⌊sum / n⌋                      down
    Var       ⌈(n * sum_sq - sum ^ 2) / n²⌉   up
    radicand  ⌊2 * Var * ln / n⌋              down
    root      ⌈√radicand⌉                     up
    range     ⌈7 * range * ln / (3 * (n-1))⌉  up

The third goes the wrong way.  The root takes it back unless the truncated radicand is a
perfect square, so for most statistics the bound is sound (`RoundsUp`); for the others it
depends on what the remaining roundings happen to add.
-/
import Yuva.Mem.Bakeoff
import Mathlib.Algebra.Order.Chebyshev
import Mathlib.Algebra.BigOperators.Fin

namespace Yuva.Mem.Bakeoff

open Yuva.Machine

/-! ## The logarithm -/

theorem lnArg_lt (deltaNum deltaDen : BitVec 32) : lnArg deltaNum.toNat deltaDen.toNat < 2 ^ 33 := by
  have hden := deltaDen.isLt
  have hquot := Nat.div_le_self (satU 64 (2 * deltaDen.toNat)) deltaNum.toNat
  rw [satU_of_lt (by omega)] at hquot
  simp only [lnArg, satU_of_lt (show 2 * deltaDen.toNat < 2 ^ 64 by omega)]
  split_ifs <;> omega

theorem log2Fixed_le {x : Nat} (hx : x < 2 ^ 33) : log2Fixed x ≤ 33000 := by
  rw [log2Fixed]
  split_ifs with hone
  · decide
  have hlog : x.log2 < 33 := (Nat.log2_lt (by omega)).2 hx
  have hpow : 2 ^ x.log2 ≤ x := Nat.log2_self_le (by omega)
  have hnext : x < 2 ^ (x.log2 + 1) := Nat.lt_log2_self
  rw [pow_succ] at hnext
  dsimp only
  generalize 2 ^ x.log2 = pow at hpow hnext
  have hfrac : (((x - pow : Nat) : Int) * SCALE).tdiv pow ≤ 1000 := by
    rw [SCALE, Int.tdiv_eq_ediv_of_nonneg (by omega)]
    exact Int.ediv_le_of_le_mul (by omega) (by omega)
  have hip : (x.log2 : Int) * SCALE ≤ 32000 := by
    rw [SCALE]
    omega
  have hprod : wrapI 64 (((x - pow : Nat) : Int) * SCALE) = ((x - pow : Nat) : Int) * SCALE :=
    wrapI64_eq (by rw [SCALE]; omega) (by rw [SCALE]; omega)
  rw [wrapI64_eq (z := ((x - pow : Nat) : Int)) (by omega) (by omega), hprod, wrapI64_eq (by omega) (by omega)]
  omega

theorem lnCeil_bounds (deltaNum deltaDen : BitVec 32) :
    1 ≤ lnCeil deltaNum.toNat deltaDen.toNat ∧ lnCeil deltaNum.toNat deltaDen.toNat ≤ 23 := by
  have hlog := log2Fixed_le (lnArg_lt deltaNum deltaDen)
  refine ⟨le_max_right _ _, max_le ?_ (by decide)⟩
  rw [ceilDivI128_ediv _ (by decide), lnFixed, SCALE, LN2_FIXED, Int.tdiv_eq_ediv,
    show Int.sign 1000 = 1 from rfl]
  split_ifs <;> omega

/-! ## A list of rewards -/

/-- A list of rewards whose statistics fit the arguments of the bound. -/
structure Sample where
  rewards : List Int
  lo : Int
  range : Int
  two_le : 2 ≤ rewards.length
  length_lt : rewards.length < 2 ^ 32
  mem : ∀ r ∈ rewards, lo ≤ r ∧ r ≤ lo + range
  lo_mem : -2 ^ 63 ≤ lo ∧ lo < 2 ^ 63
  range_lt : range < 2 ^ 63
  sum_mem : -2 ^ 63 ≤ rewards.sum ∧ rewards.sum < 2 ^ 63
  sumSq_lt : (rewards.map (· ^ 2)).sum < 2 ^ 127

namespace Sample

variable (S : Sample)

def n : Nat := S.rewards.length
def sum : Int := S.rewards.sum
def sumSq : Int := (S.rewards.map (· ^ 2)).sum
def mean : ℚ := S.sum / S.n

/-- `n ^ 2` times the population variance. -/
def spread : Int := S.n * S.sumSq - S.sum ^ 2

/-- The spread with its product stopped at the last `i128`. -/
def heldSpread : Int := min (S.n * S.sumSq) (2 ^ 127 - 1) - S.sum ^ 2

/-- `2 * Var * ln`, the variance rounded up. -/
def radicand (ln : Int) : Int := 2 * ⌈(S.heldSpread : ℚ) / (S.n * S.n : Nat)⌉ * ln

/-- The exact range penalty. -/
def rangeTerm (ln : Int) : ℚ := (7 * S.range * ln : Int) / (3 * (S.n - 1) : Nat)

/-- The bound on these rewards. -/
def bound (deltaNum deltaDen : BitVec 32) : Int :=
  ebLowerBound S.sum S.sumSq S.n S.range deltaNum.toNat deltaDen.toNat S.lo

/-- The bound leaves room under the mean for penalties no smaller than the exact ones. -/
def PenaltiesRoundUp (ln L : Int) : Prop :=
  ∃ p r : ℚ, 0 ≤ p ∧ 0 ≤ r ∧ L ≤ S.mean - p - r ∧
    2 * (S.n * S.sumSq - S.sum ^ 2) * ln ≤ p ^ 2 * S.n ^ 3 ∧ 7 * S.range * ln ≤ 3 * (S.n - 1) * r

theorem n_pos : 0 < S.n := Nat.lt_of_lt_of_le Nat.zero_lt_two S.two_le

theorem cast_two_le : (2 : ℚ) ≤ S.n := by exact_mod_cast S.two_le

/-- The denominator of the range penalty. -/
theorem den_pos : (0 : ℚ) < 3 * (S.n - 1) := by
  have htwo := S.cast_two_le
  linarith

theorem range_nonneg : 0 ≤ S.range := by
  obtain ⟨r, hr⟩ := List.exists_mem_of_length_pos S.n_pos
  have := S.mem r hr
  omega

theorem sumSq_nonneg : 0 ≤ S.sumSq := by
  refine List.sum_nonneg fun x hx => ?_
  obtain ⟨r, -, rfl⟩ := List.mem_map.1 hx
  positivity

/-- Cauchy's inequality. -/
theorem spread_nonneg : 0 ≤ S.spread := by
  have hsum : S.sum = ∑ i : Fin S.rewards.length, S.rewards[i] := (Fin.sum_univ_getElem S.rewards).symm
  have hsq : S.sumSq = ∑ i : Fin S.rewards.length, S.rewards[i] ^ 2 :=
    (Fin.sum_univ_fun_getElem S.rewards (· ^ 2)).symm
  have hcauchy := sq_sum_le_card_mul_sum_sq (s := Finset.univ) (f := fun i : Fin S.rewards.length => S.rewards[i])
  rw [Finset.card_univ, Fintype.card_fin, ← hsum, ← hsq] at hcauchy
  exact sub_nonneg.2 hcauchy

theorem sum_le : S.sum ≤ S.n * (S.lo + S.range) := by
  have h := List.sum_le_card_nsmul S.rewards (S.lo + S.range) fun r hr => (S.mem r hr).2
  rwa [nsmul_eq_mul] at h

theorem sum_sq_le : S.sum ^ 2 ≤ 2 ^ 126 := by
  have hbounds : -2 ^ 63 ≤ S.sum ∧ S.sum < 2 ^ 63 := S.sum_mem
  nlinarith

theorem heldSpread_nonneg : 0 ≤ S.heldSpread := by
  have hspread : 0 ≤ S.n * S.sumSq - S.sum ^ 2 := S.spread_nonneg
  have hsum := S.sum_sq_le
  rw [heldSpread]
  omega

theorem heldSpread_lt : S.heldSpread < 2 ^ 127 := by
  have hsq : 0 ≤ S.sum ^ 2 := sq_nonneg _
  rw [heldSpread]
  omega

theorem varNum_eq : varNum S.sum S.sumSq S.n = S.heldSpread := by
  have hprod : 0 ≤ S.n * S.sumSq := mul_nonneg (Int.natCast_nonneg _) S.sumSq_nonneg
  have hnonneg := S.heldSpread_nonneg
  have hlt := S.heldSpread_lt
  have hsum := S.sum_sq_le
  have hsq : 0 ≤ S.sum ^ 2 := sq_nonneg _
  have hsat : satI 128 (S.n * S.sumSq) = min (S.n * S.sumSq) (2 ^ 127 - 1) := by
    rw [satI]
    omega
  rw [varNum, hsat, ← pow_two, sat128_eq (z := S.sum ^ 2) (by omega) (by omega), ← heldSpread,
    sat128_eq (by omega) hlt, if_neg (by omega)]

/-- The variance the code computes. -/
theorem var_eq :
    ceilDivI128 (varNum S.sum S.sumSq S.n) (satI 128 ((S.n : Int) * S.n)) =
      ⌈(S.heldSpread : ℚ) / (S.n * S.n : Nat)⌉ := by
  have hn := S.length_lt
  have htwo := S.two_le
  have hsat : satI 128 ((S.n : Int) * S.n) = ((S.n * S.n : Nat) : Int) := by
    rw [sat128_sq (by omega) (by rw [n]; omega), Nat.cast_mul]
  rw [varNum_eq, hsat, ceilDivI128_eq _ (Nat.mul_pos S.n_pos S.n_pos)]

/-- The range penalty the code computes. -/
theorem rangePenalty_eq {ln : Int} (hln : 1 ≤ ln ∧ ln ≤ 23) :
    rangePenalty S.range ln S.n = ⌈S.rangeTerm ln⌉ := by
  have hrange := S.range_nonneg
  have hlt := S.range_lt
  have htwo : 2 ≤ S.n := S.two_le
  have hn : S.n < 2 ^ 32 := S.length_lt
  have hden : satI 128 (3 * max ((S.n : Int) - 1) 1) = ((3 * (S.n - 1) : Nat) : Int) := by
    rw [sat128_eq (by omega) (by omega)]
    omega
  have hnum : satI 128 (satI 128 (7 * satI 64 |S.range|) * ln) = 7 * S.range * ln := by
    rw [abs_of_nonneg hrange, satI_of_mem (w := 64) (by omega) hlt, sat128_eq (z := 7 * S.range) (by omega) (by omega),
      sat128_eq (by nlinarith) (by nlinarith)]
  rw [rangePenalty, hden, hnum]
  exact ceilDivI128_eq _ (by omega)

theorem rangeTerm_nonneg {ln : Int} (hln : 1 ≤ ln) : 0 ≤ S.rangeTerm ln := by
  have hrange := S.range_nonneg
  have hnum : 0 ≤ 7 * S.range * ln := by positivity
  exact div_nonneg (by exact_mod_cast hnum) (Nat.cast_nonneg _)

theorem ceil_rangeTerm_le {ln : Int} (hln : 1 ≤ ln ∧ ln ≤ 23) : ⌈S.rangeTerm ln⌉ ≤ 2 ^ 72 := by
  have hrange := S.range_nonneg
  have hlt := S.range_lt
  have hden : 1 ≤ 3 * (S.n - 1) := by
    have htwo : 2 ≤ S.n := S.two_le
    omega
  have hnonneg : 0 ≤ 7 * S.range * ln := by nlinarith
  have hnum : 7 * S.range * ln ≤ 2 ^ 72 := by nlinarith
  rw [Int.ceil_le, rangeTerm]
  exact (div_le_self (by exact_mod_cast hnonneg) (by exact_mod_cast hden)).trans (by exact_mod_cast hnum)

theorem rangeTerm_mul (ln : Int) : S.rangeTerm ln * (3 * (S.n - 1)) = 7 * S.range * ln := by
  have htwo : 2 ≤ S.n := S.two_le
  have hden : ((3 * (S.n - 1) : Nat) : ℚ) = 3 * (S.n - 1) := by
    rw [Nat.cast_mul, Nat.cast_sub (by omega)]
    norm_num
  rw [rangeTerm, hden, div_mul_cancel₀ _ S.den_pos.ne']
  push_cast
  rfl

theorem floor_mean_bounds : -2 ^ 63 ≤ ⌊S.mean⌋ ∧ ⌊S.mean⌋ < 2 ^ 63 ∧ ⌊S.mean⌋ ≤ S.lo + S.range := by
  have hsum : -2 ^ 63 ≤ S.sum ∧ S.sum < 2 ^ 63 := S.sum_mem
  have hle := S.sum_le
  rw [mean, Rat.floor_intCast_div_natCast]
  have hn : (0 : Int) < S.n := by exact_mod_cast S.n_pos
  refine ⟨Int.le_ediv_of_mul_le hn (by nlinarith), Int.ediv_lt_of_lt_mul hn (by nlinarith), ?_⟩
  exact Int.ediv_le_of_le_mul hn (by rwa [mul_comm])

/-- A bound above `lo` has room for the whole range penalty, so the rewards are many. -/
theorem many_of_lt {ln : Int} (h : S.lo < ⌊S.mean⌋ - ⌈S.rangeTerm ln⌉) :
    7 * ln < 3 * (S.n - 1 : Int) := by
  have htwo : 2 ≤ S.n := S.two_le
  have hmean := S.floor_mean_bounds.2.2
  have hlt : ⌈S.rangeTerm ln⌉ < S.range := by omega
  have hterm : S.rangeTerm ln < S.range :=
    lt_of_le_of_lt (Int.le_ceil _) (by exact_mod_cast hlt)
  have hmul := mul_lt_mul_of_pos_right hterm S.den_pos
  rw [rangeTerm_mul] at hmul
  have hint : 7 * S.range * ln < S.range * (3 * (S.n - 1)) := by exact_mod_cast hmul
  have hrange := S.range_nonneg
  by_contra hge
  nlinarith

/-- With so many rewards the radicand is far from the end of `i128`. -/
theorem radicand_bounds {ln : Int} (hln : 1 ≤ ln ∧ ln ≤ 23) (hmany : 7 * ln < 3 * (S.n - 1 : Int)) :
    0 ≤ S.radicand ln ∧ S.radicand ln < 2 ^ 126 := by
  have hn : (0 : ℚ) < (S.n * S.n : Nat) := by exact_mod_cast Nat.mul_pos S.n_pos S.n_pos
  have hheld := S.heldSpread_nonneg
  have hlt := S.heldSpread_lt
  have hvar : 0 ≤ ⌈(S.heldSpread : ℚ) / (S.n * S.n : Nat)⌉ :=
    Int.ceil_nonneg (div_nonneg (by exact_mod_cast hheld) hn.le)
  have hceil := Int.ceil_lt_add_one ((S.heldSpread : ℚ) / (S.n * S.n : Nat))
  rw [radicand]
  generalize ⌈(S.heldSpread : ℚ) / (S.n * S.n : Nat)⌉ = v at hvar hceil
  have hv : (v - 1) * (S.n * S.n) < S.heldSpread := by
    have := mul_lt_mul_of_pos_right (sub_lt_iff_lt_add.2 hceil) hn
    rw [div_mul_cancel₀ _ hn.ne'] at this
    exact_mod_cast this
  have hsq : 49 * (ln * ln) ≤ 9 * ((S.n : Int) * S.n) := by nlinarith
  refine ⟨by nlinarith, ?_⟩
  by_contra hge
  have hbig : 2 ^ 125 - 23 ≤ (v - 1) * ln := by nlinarith
  have hv1 : 0 ≤ v - 1 := by nlinarith
  have hcube : (v - 1) * (49 * (ln * ln)) ≤ (v - 1) * (9 * (S.n * S.n)) := mul_le_mul_of_nonneg_left hsq hv1
  nlinarith

theorem varPenalty_eq {ln : Int} (hln : 1 ≤ ln ∧ ln ≤ 23) (hmany : 7 * ln < 3 * (S.n - 1 : Int)) :
    varPenalty ⌈(S.heldSpread : ℚ) / (S.n * S.n : Nat)⌉ ln S.n = ⌈√((S.radicand ln / S.n : Int) : ℝ)⌉ := by
  obtain ⟨hnonneg, hlt⟩ := S.radicand_bounds hln hmany
  have hvar : 0 ≤ 2 * ⌈(S.heldSpread : ℚ) / (S.n * S.n : Nat)⌉ := by
    rw [radicand] at hnonneg
    by_contra hneg
    nlinarith
  rw [radicand] at hnonneg hlt ⊢
  rw [varPenalty]
  generalize 2 * ⌈(S.heldSpread : ℚ) / (S.n * S.n : Nat)⌉ = v at hvar hnonneg hlt
  have hv : v ≤ v * ln := by nlinarith
  have hquot : 0 ≤ v * ln / S.n := Int.ediv_nonneg hnonneg (Int.natCast_nonneg _)
  have hsmall : v * ln / S.n ≤ v * ln := Int.ediv_le_self _ hnonneg
  have hhalf : v * ln / S.n < 2 ^ 125 := by
    have htwo : 2 ≤ (S.n : Int) := by exact_mod_cast S.two_le
    exact Int.ediv_lt_of_lt_mul (by omega) (by nlinarith)
  rw [sat128_eq (z := v) (by omega) (by omega), sat128_eq (by omega) (by omega),
    max_eq_left (show (1 : Int) ≤ S.n by exact_mod_cast S.n_pos),
    Int.tdiv_eq_ediv_of_nonneg hnonneg, max_eq_left hquot]
  exact isqrtCeilI128_eq hhalf

theorem isqrtCeilI128_lt (x : Int) : isqrtCeilI128 x < 2 ^ 63 := by
  rw [isqrtCeilI128]
  dsimp only
  split_ifs <;> first | decide | exact (satI_mem 64 _).2

/-- Above the floor the bound is its formula, with the code's five roundings. -/
theorem bound_eq {deltaNum deltaDen : BitVec 32} (h : S.lo < S.bound deltaNum deltaDen) :
    S.bound deltaNum deltaDen =
      ⌊S.mean⌋ - ⌈√((S.radicand (lnCeil deltaNum.toNat deltaDen.toNat) / S.n : Int) : ℝ)⌉ -
        ⌈S.rangeTerm (lnCeil deltaNum.toNat deltaDen.toNat)⌉ := by
  have hln := lnCeil_bounds deltaNum deltaDen
  have htwo : 2 ≤ S.n := S.two_le
  obtain ⟨hmlo, hmhi, -⟩ := S.floor_mean_bounds
  have hlo := S.lo_mem.1
  have hmean : floorDivI128 S.sum S.n = ⌊S.mean⌋ := floorDivI128_eq _ (by omega)
  rw [bound, ebLowerBound, if_neg (by omega), if_neg (by omega)] at h ⊢
  simp only [S.var_eq, S.rangePenalty_eq hln, hmean] at h ⊢
  generalize lnCeil deltaNum.toNat deltaDen.toNat = ln at hln h ⊢
  have hterm := S.rangeTerm_nonneg hln.1
  have hrange : 0 ≤ ⌈S.rangeTerm ln⌉ := Int.ceil_nonneg hterm
  have hrangeHi : ⌈S.rangeTerm ln⌉ ≤ 2 ^ 72 := S.ceil_rangeTerm_le hln
  have hvar0 : 0 ≤ varPenalty ⌈(S.heldSpread : ℚ) / (S.n * S.n : Nat)⌉ ln S.n := isqrtCeilI128_nonneg _
  have hvarHi : varPenalty ⌈(S.heldSpread : ℚ) / (S.n * S.n : Nat)⌉ ln S.n < 2 ^ 63 := isqrtCeilI128_lt _
  rw [sat128_eq (z := ⌊S.mean⌋ - _) (by omega) (by omega), sat128_eq (by omega) (by omega)] at h ⊢
  have hopen : S.lo < ⌊S.mean⌋ - varPenalty ⌈(S.heldSpread : ℚ) / (S.n * S.n : Nat)⌉ ln S.n - ⌈S.rangeTerm ln⌉ := by
    rw [clampI128ToI64, satI] at h
    omega
  have hmany : 7 * ln < 3 * (S.n - 1 : Int) := S.many_of_lt (by omega)
  rw [S.varPenalty_eq hln hmany] at hopen hvar0 hvarHi ⊢
  rw [clampI128ToI64_eq (by omega) (by omega), max_eq_left hopen.le]

/-! ## The rounding that goes the other way -/

/-- What the rounding of the mean and of the range penalty adds to the variance penalty. -/
def slack (ln : Int) : ℚ := Int.fract S.mean + (⌈S.rangeTerm ln⌉ - S.rangeTerm ln)

/-- The variance penalty stays above the exact one: the radicand is not truncated onto a
square and its spread is whole, or the root and the slack make up for it. -/
def RoundsUp (ln : Int) : Prop :=
  (S.n * S.sumSq < 2 ^ 127 ∧ ((S.n : Int) ∣ S.radicand ln ∨ ¬ IsSquare (S.radicand ln / S.n))) ∨
    2 * S.spread * ln ≤ (⌈√((S.radicand ln / S.n : Int) : ℝ)⌉ + S.slack ln) ^ 2 * S.n ^ 3

theorem slack_nonneg (ln : Int) : 0 ≤ S.slack ln :=
  add_nonneg (Int.fract_nonneg _) (sub_nonneg.2 (Int.le_ceil _))

/-- Room for both penalties is room for the variance penalty beside the exact range penalty. -/
theorem penaltiesRoundUp_iff {ln q : Int} (hln : 1 ≤ ln) (hq : 0 ≤ q) :
    S.PenaltiesRoundUp ln (⌊S.mean⌋ - q - ⌈S.rangeTerm ln⌉) ↔
      2 * S.spread * ln ≤ (q + S.slack ln) ^ 2 * S.n ^ 3 := by
  have hslack := S.slack_nonneg ln
  have hterm := S.rangeTerm_mul ln
  have hspread : ((S.spread : Int) : ℚ) = S.n * S.sumSq - S.sum ^ 2 := by
    rw [spread]
    push_cast
    rfl
  have hcube : (0 : ℚ) < S.n ^ 3 := by
    have hpos : (0 : ℚ) < S.n := by exact_mod_cast S.n_pos
    positivity
  have hqq : (0 : ℚ) ≤ q := by exact_mod_cast hq
  have hroom : S.mean - (⌊S.mean⌋ - q - ⌈S.rangeTerm ln⌉ : Int) = q + S.slack ln + S.rangeTerm ln := by
    rw [slack, Int.fract]
    push_cast
    ring
  rw [hspread]
  constructor
  · rintro ⟨p, r, hp, hr, hle, hvar, hrange⟩
    rw [← hterm, mul_comm] at hrange
    have hr' : S.rangeTerm ln ≤ r := le_of_mul_le_mul_left hrange S.den_pos
    have hpq : p ≤ q + S.slack ln := by linarith
    exact hvar.trans (mul_le_mul_of_nonneg_right (pow_le_pow_left₀ hp hpq 2) hcube.le)
  · intro hvar
    refine ⟨q + S.slack ln, S.rangeTerm ln, by positivity, S.rangeTerm_nonneg hln, by linarith, hvar, ?_⟩
    rw [← hterm, mul_comm]

theorem root_nonneg (ln : Int) : 0 ≤ ⌈√((S.radicand ln / S.n : Int) : ℝ)⌉ :=
  Int.ceil_nonneg (Real.sqrt_nonneg _)

theorem quotient_le_root (ln : Int) :
    S.radicand ln / S.n ≤ ⌈√((S.radicand ln / S.n : Int) : ℝ)⌉ * ⌈√((S.radicand ln / S.n : Int) : ℝ)⌉ := by
  have hroot : (0 : ℝ) ≤ ⌈√((S.radicand ln / S.n : Int) : ℝ)⌉ := by exact_mod_cast S.root_nonneg ln
  have hsq := (Real.sqrt_le_left hroot).1 (Int.le_ceil _)
  rw [pow_two] at hsq
  exact_mod_cast hsq

/-- The root goes up by more than the truncation took, unless it had nothing to round. -/
theorem radicand_le {ln : Int} (h : (S.n : Int) ∣ S.radicand ln ∨ ¬ IsSquare (S.radicand ln / S.n)) :
    S.radicand ln ≤ ⌈√((S.radicand ln / S.n : Int) : ℝ)⌉ ^ 2 * S.n := by
  have hn : (0 : Int) < S.n := by exact_mod_cast S.n_pos
  have hroot := S.quotient_le_root ln
  generalize ⌈√((S.radicand ln / S.n : Int) : ℝ)⌉ = q at hroot ⊢
  rw [pow_two]
  rcases h with hdvd | hsquare
  · calc S.radicand ln = S.radicand ln / S.n * S.n := (Int.ediv_mul_cancel hdvd).symm
      _ ≤ q * q * S.n := mul_le_mul_of_nonneg_right hroot hn.le
  · have hne : S.radicand ln / S.n ≠ q * q := fun heq => hsquare ⟨q, heq⟩
    have hsucc : S.radicand ln / S.n + 1 ≤ q * q := by omega
    calc S.radicand ln ≤ (S.radicand ln / S.n + 1) * S.n := (Int.lt_ediv_add_one_mul_self _ hn).le
      _ ≤ q * q * S.n := mul_le_mul_of_nonneg_right hsucc hn.le

/-- Rounding the variance up is rounding the radicand up. -/
theorem spread_le_radicand {ln : Int} (hln : 0 ≤ ln) (hfit : S.n * S.sumSq < 2 ^ 127) :
    2 * S.spread * ln ≤ S.radicand ln * S.n ^ 2 := by
  have hn : (0 : ℚ) < (S.n * S.n : Nat) := by exact_mod_cast Nat.mul_pos S.n_pos S.n_pos
  have hheld : S.heldSpread = S.spread := by
    rw [heldSpread, spread]
    omega
  have hceil := (div_le_iff₀ hn).1 (Int.le_ceil ((S.heldSpread : ℚ) / (S.n * S.n : Nat)))
  rw [radicand]
  generalize ⌈(S.heldSpread : ℚ) / (S.n * S.n : Nat)⌉ = v at hceil
  have hvar : S.spread ≤ v * (S.n * S.n) := by
    rw [← hheld]
    exact_mod_cast hceil
  calc 2 * S.spread * ln ≤ 2 * (v * (S.n * S.n)) * ln := by gcongr
    _ = 2 * v * ln * S.n ^ 2 := by ring

theorem variance_covered {ln : Int} (hln : 0 ≤ ln) (hfit : S.n * S.sumSq < 2 ^ 127)
    (h : (S.n : Int) ∣ S.radicand ln ∨ ¬ IsSquare (S.radicand ln / S.n)) :
    2 * S.spread * ln ≤ (⌈√((S.radicand ln / S.n : Int) : ℝ)⌉ + S.slack ln) ^ 2 * S.n ^ 3 := by
  have hroot := S.root_nonneg ln
  have hle := S.radicand_le h
  have hspread := S.spread_le_radicand hln hfit
  have hslack := S.slack_nonneg ln
  generalize ⌈√((S.radicand ln / S.n : Int) : ℝ)⌉ = q at hroot hle ⊢
  have hint : 2 * S.spread * ln ≤ q ^ 2 * S.n ^ 3 := by
    calc 2 * S.spread * ln ≤ S.radicand ln * S.n ^ 2 := hspread
      _ ≤ q ^ 2 * S.n * S.n ^ 2 := by gcongr
      _ = q ^ 2 * S.n ^ 3 := by ring
  have hq : (0 : ℚ) ≤ q := by exact_mod_cast hroot
  calc (2 * S.spread * ln : ℚ) ≤ q ^ 2 * S.n ^ 3 := by exact_mod_cast hint
    _ ≤ (q + S.slack ln) ^ 2 * S.n ^ 3 := by
      gcongr
      exact le_add_of_nonneg_right hslack

/-- Above its floor the bound rounds both penalties up exactly when the truncated radicand
does not fall short. -/
theorem bound_penaltiesRoundUp_iff (deltaNum deltaDen : BitVec 32) (h : S.lo < S.bound deltaNum deltaDen) :
    S.PenaltiesRoundUp (lnCeil deltaNum.toNat deltaDen.toNat) (S.bound deltaNum deltaDen) ↔
      S.RoundsUp (lnCeil deltaNum.toNat deltaDen.toNat) := by
  have hln := (lnCeil_bounds deltaNum deltaDen).1
  rw [S.bound_eq h, S.penaltiesRoundUp_iff hln (S.root_nonneg _)]
  constructor
  · exact .inr
  · rintro (⟨hfit, hexact⟩ | hcover)
    · exact S.variance_covered (by omega) hfit hexact
    · exact hcover

/-- Eleven losses of one and eleven gains of one.  The variance is one and the radicand
`2 / 22`, truncated to zero, so the bound takes off the range penalty alone. -/
def evenOdds : Sample where
  rewards := List.replicate 11 (-1) ++ List.replicate 11 1
  lo := -4
  range := 9
  two_le := by decide
  length_lt := by decide
  mem := by decide
  lo_mem := by decide
  range_lt := by decide
  sum_mem := by decide
  sumSq_lt := by decide

theorem evenOdds_bound : evenOdds.bound 1 1 = -1 := by decide +kernel

theorem not_bound_penaltiesRoundUp :
    ¬ ∀ (S : Sample) (deltaNum deltaDen : BitVec 32), deltaNum ≠ 0 → S.lo < S.bound deltaNum deltaDen →
      S.PenaltiesRoundUp (lnCeil deltaNum.toNat deltaDen.toNat) (S.bound deltaNum deltaDen) := by
  intro hall
  obtain ⟨p, r, hp, hr, hle, hvar, hrange⟩ := hall evenOdds 1 1 (by decide) (by decide +kernel)
  have hln : lnCeil (1 : BitVec 32).toNat (1 : BitVec 32).toNat = 1 := by decide
  have hn : evenOdds.n = 22 := rfl
  have hsum : evenOdds.sum = 0 := by decide
  have hsq : evenOdds.sumSq = 22 := by decide
  have hwidth : evenOdds.range = 9 := rfl
  rw [evenOdds_bound, mean, hsum] at hle
  rw [hln, hn, hsum, hsq] at hvar
  rw [hln, hn, hwidth] at hrange
  norm_num at hle hvar hrange
  have hr1 : 1 ≤ r := by linarith
  have hp0 : p = 0 := by linarith
  norm_num [hp0] at hvar

theorem evenOdds_penaltiesRoundUp_iff :
    evenOdds.PenaltiesRoundUp (lnCeil (1 : BitVec 32).toNat (1 : BitVec 32).toNat) (evenOdds.bound 1 1) ↔
      evenOdds.RoundsUp (lnCeil (1 : BitVec 32).toNat (1 : BitVec 32).toNat) :=
  evenOdds.bound_penaltiesRoundUp_iff 1 1 (by decide +kernel)

end Sample

end Yuva.Mem.Bakeoff
