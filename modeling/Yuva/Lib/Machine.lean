/-
# `Yuva.Lib.Machine` — fixed-width arithmetic over `Nat` and `Int`

What a `w`-bit register holds after an operation whose exact result is known:
`wrapU` and `wrapI` are the wrapping operators, `satU` and `satI` the saturating
ones.  A model computes over `Nat` or `Int` and names the width where the result
could leave it.

Nothing here mentions a particular program.
-/
import Mathlib.Data.Nat.Basic
import Mathlib.Tactic.Ring

namespace Yuva.Machine

/-- Unsigned, modulo `2 ^ w`. -/
def wrapU (w n : Nat) : Nat := n % 2 ^ w

/-- Unsigned, stopping at the largest value. -/
def satU (w n : Nat) : Nat := min n (2 ^ w - 1)

/-- Signed, modulo `2 ^ w`. -/
def wrapI (w : Nat) (z : Int) : Int := z.bmod (2 ^ w)

/-- Signed, stopping at either end. -/
def satI (w : Nat) (z : Int) : Int := max (-2 ^ (w - 1)) (min z (2 ^ (w - 1) - 1))

/-- `n & !(align - 1)` on `w`-bit words. -/
def clearLow (w align n : Nat) : Nat := n &&& (2 ^ w - 1 - (align - 1))

/-- `a - b` on unsigned words, stopping at zero. -/
def subSat {w : Nat} (a b : BitVec w) : BitVec w := if b ≤ a then a - b else 0

theorem wrapU_of_lt {w n : Nat} (h : n < 2 ^ w) : wrapU w n = n := Nat.mod_eq_of_lt h

theorem satU_of_lt {w n : Nat} (h : n < 2 ^ w) : satU w n = n := Nat.min_eq_left (by omega)

theorem satI_of_mem {w : Nat} {z : Int} (hlo : -2 ^ (w - 1) ≤ z) (hhi : z < 2 ^ (w - 1)) : satI w z = z := by
  rw [satI]
  omega

theorem wrapI_of_mem {w : Nat} {z : Int} (hlo : -2 ^ w ≤ z) (hhi : z < 2 ^ w) : wrapI (w + 1) z = z := by
  have hhalf : ((2 ^ (w + 1) : Nat) : Int) = 2 ^ w * 2 := by rw [pow_succ]; norm_cast
  exact Int.bmod_eq_of_le (by omega) (by omega)

theorem wrapI64_eq {z : Int} (hlo : -2 ^ 63 ≤ z) (hhi : z < 2 ^ 63) : wrapI 64 z = z :=
  wrapI_of_mem hlo hhi

theorem wrapI64_mem (z : Int) : -2 ^ 63 ≤ wrapI 64 z ∧ wrapI 64 z < 2 ^ 63 :=
  ⟨Int.le_bmod (by decide), Int.bmod_lt (by decide)⟩

theorem satI_mem (w : Nat) (z : Int) : -2 ^ (w - 1) ≤ satI w z ∧ satI w z < 2 ^ (w - 1) := by
  have hpos : (0 : Int) < 2 ^ (w - 1) := Int.pow_pos (by decide)
  rw [satI]
  omega

/-- For a power of two, clearing the low bits rounds down to a multiple. -/
theorem clearLow_pow {w k n : Nat} (hn : n < 2 ^ w) (hk : k ≤ w) :
    clearLow w (2 ^ k) n = n / 2 ^ k * 2 ^ k := by
  have hmask : 2 ^ w - 1 - (2 ^ k - 1) = 2 ^ w - (2 ^ k - 1 + 1) := by omega
  have hlt : 2 ^ k - 1 < 2 ^ w :=
    Nat.lt_of_lt_of_le (Nat.sub_lt (Nat.two_pow_pos k) Nat.one_pos) (Nat.pow_le_pow_right (by decide) hk)
  rw [clearLow, hmask]
  apply Nat.eq_of_testBit_eq
  intro i
  rw [Nat.testBit_and, Nat.testBit_two_pow_sub_succ hlt, Nat.testBit_mul_two_pow,
    Nat.testBit_div_two_pow, Nat.testBit_two_pow_sub_one]
  by_cases hik : k ≤ i
  · have hnot : ¬ i < k := Nat.not_lt.mpr hik
    by_cases hiw : i < w
    · simp [hik, hnot, hiw]
    · have hbit : n.testBit i = false :=
        Nat.testBit_lt_two_pow (Nat.lt_of_lt_of_le hn (Nat.pow_le_pow_right (by decide) (Nat.le_of_not_lt hiw)))
      simp [hik, hbit]
  · have hlt : i < k := Nat.lt_of_not_le hik
    simp [hik, hlt]

end Yuva.Machine
