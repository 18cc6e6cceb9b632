/-
# `Yuva.Mem.Propensity` — the logging propensities as a distribution

With `mass = ⌊1000 * eps⌋` the two propensities of `m` actions are

    greedy  1000 - mass + mass / m
    other   mass / m, raised to one,

and they fit into the thousand as long as nothing is raised: `m` shares of `mass` never pass
it.  Once `m` exceeds `mass` a share is zero and every other action is given one thousandth
that was never taken from the greedy one; after `mass` of them the thousand is spent.  With
`eps` one the greedy action itself is then left with nothing.
-/
import Yuva.Mem.Score
import Mathlib.Tactic.Linarith

namespace Yuva.Mem

open Yuva.Machine

/-- Every action gets a share, the greedy one the largest, and together no more than the
whole. -/
def PropensitiesFit (epsNum epsDen m : Nat) : Prop :=
  let greedy := explorePropensityQ epsNum epsDen m true
  let other := explorePropensityQ epsNum epsDen m false
  (1 ≤ greedy ∧ greedy ≤ 1000) ∧ (1 ≤ other ∧ other ≤ 1000) ∧ other ≤ greedy ∧
    greedy + (m - 1) * other ≤ 1000

/-- The mass of the exploration, in thousandths. -/
def epsMass (epsNum epsDen : Nat) : Nat := PROPENSITY_SCALE * epsNum / epsDen

theorem epsMass_le {epsNum epsDen : Nat} (hle : epsNum ≤ epsDen) : epsMass epsNum epsDen ≤ 1000 := by
  rw [epsMass, PROPENSITY_SCALE]
  exact Nat.div_le_of_le_mul (by rw [mul_comm epsDen]; exact Nat.mul_le_mul_left _ hle)

/-- The shares beyond a single action, without the widths. -/
theorem explorePropensityQ_eq {epsNum epsDen m : Nat} (hpos : 1 ≤ epsNum) (hle : epsNum ≤ epsDen)
    (hden : epsDen < 2 ^ 32) (hm : 2 ≤ m) (hwidth : m < 2 ^ 32) (isGreedy : Bool) :
    explorePropensityQ epsNum epsDen m isGreedy =
      if isGreedy then 1000 - epsMass epsNum epsDen + epsMass epsNum epsDen / m
      else max (epsMass epsNum epsDen / m) 1 := by
  have hmass := epsMass_le hle
  have hshare : epsMass epsNum epsDen / m ≤ epsMass epsNum epsDen := Nat.div_le_self _ _
  have hprod : epsDen * m < 2 ^ 64 := by nlinarith
  have hscale : PROPENSITY_SCALE * epsNum < 2 ^ 64 := by rw [PROPENSITY_SCALE]; omega
  rw [explorePropensityQ, if_neg (by omega), if_neg (by omega), if_neg (by omega), satU_of_lt hscale,
    satU_of_lt hprod]
  dsimp only
  rw [← Nat.div_div_eq_div_mul, ← epsMass, PROPENSITY_SCALE, satU_of_lt (by omega)]
  cases isGreedy with
  | true => exact Nat.min_eq_left (by simp only [if_true]; omega)
  | false => exact Nat.min_eq_left (by simp only [Bool.false_eq_true, if_false]; omega)

/-- Once nothing is raised, `m` shares of the mass fit into it. -/
theorem fits_of_le_mass {mass m : Nat} (hmass : mass ≤ 1000) (hm : 2 ≤ m) (hle : m ≤ mass) :
    (1 ≤ 1000 - mass + mass / m ∧ 1000 - mass + mass / m ≤ 1000) ∧
      (1 ≤ max (mass / m) 1 ∧ max (mass / m) 1 ≤ 1000) ∧ max (mass / m) 1 ≤ 1000 - mass + mass / m ∧
        1000 - mass + mass / m + (m - 1) * max (mass / m) 1 ≤ 1000 := by
  have hshare : 1 ≤ mass / m := (Nat.one_le_div_iff (by omega)).2 hle
  have hself : mass / m ≤ mass := Nat.div_le_self _ _
  have hall : m * (mass / m) ≤ mass := Nat.mul_div_le _ _
  have hsplit : (m - 1) * (mass / m) + mass / m = m * (mass / m) := by
    rw [← Nat.succ_mul]
    congr 1
    omega
  rw [Nat.max_eq_left hshare]
  omega

/-- For a positive `eps` up to one: exactly the counts of actions that the mass reaches, the
greedy action aside. -/
theorem propensitiesFit_iff (epsNum epsDen m : BitVec 32) (hpos : 1 ≤ epsNum.toNat)
    (hle : epsNum.toNat ≤ epsDen.toNat) (hm : 1 ≤ m.toNat) :
    PropensitiesFit epsNum.toNat epsDen.toNat m.toNat ↔
      m.toNat ≤ 1000 ∧ (m.toNat - 1) * epsDen.toNat ≤ 1000 * epsNum.toNat := by
  have hden := epsDen.isLt
  have hwidth := m.isLt
  generalize epsNum.toNat = num at *
  generalize epsDen.toNat = den at *
  generalize m.toNat = m at *
  rcases Nat.lt_or_ge 1 m with htwo | hone
  · have hmass := epsMass_le hle
    have hreach : (m - 1) * den ≤ 1000 * num ↔ m - 1 ≤ epsMass num den :=
      (Nat.le_div_iff_mul_le (by omega)).symm
    rw [hreach, PropensitiesFit]
    simp only [explorePropensityQ_eq hpos hle hden htwo hwidth, if_true, Bool.false_eq_true, if_false]
    rcases Nat.lt_or_ge (epsMass num den) m with hfew | hmany
    · rw [Nat.div_eq_of_lt hfew, Nat.zero_max, Nat.mul_one]
      omega
    · have hfits := fits_of_le_mass hmass htwo hmany
      exact iff_of_true hfits (by omega)
  · obtain rfl : m = 1 := by omega
    refine iff_of_true ?_ (by omega)
    exact (by decide : (1 ≤ 1000 ∧ 1000 ≤ 1000) ∧ (1 ≤ 1000 ∧ 1000 ≤ 1000) ∧ 1000 ≤ 1000 ∧ 1000 + 0 * 1000 ≤ 1000)

-- A sixteenth over sixty-four actions: 938 and sixty-three ones.
example : ¬ PropensitiesFit 1 16 64 := fun h => absurd h.2.2.2 (by decide)

/-- `eps` one over 1001 actions: nothing is left for the greedy action. -/
theorem not_forall_propensitiesFit :
    ¬ ∀ epsNum epsDen m : BitVec 32, 1 ≤ epsNum.toNat → 1 ≤ epsDen.toNat → epsNum.toNat ≤ epsDen.toNat →
      1 ≤ m.toNat → PropensitiesFit epsNum.toNat epsDen.toNat m.toNat := by
  intro hall
  have hgreedy := (hall 1 1 1001 (by decide) (by decide) (by decide) (by decide)).1.1
  exact absurd hgreedy (by decide)

theorem propensitiesFit_eight :
    PropensitiesFit 1 16 8 ↔ 8 ≤ 1000 ∧ (8 - 1) * 16 ≤ 1000 * 1 :=
  propensitiesFit_iff 1 16 8 (by decide) (by decide) (by decide)

end Yuva.Mem
