/-
# `Yuva.Lib.Roots` — constants that are read off roots of primes

The hash standards take their constants from the square and the cube roots of the first primes:
"the first thirty-two bits of the fractional part", which is `⌊2^32 · p^(1/n)⌋` modulo `2^32`
(`rootBits`).  The primes are found by trial division, and they are the primes (`mem_primes`).

Nothing here mentions a particular format.
-/
import Mathlib.Data.Nat.NthRoot.Defs
import Mathlib.Data.Nat.Prime.Basic

namespace Yuva.Roots

abbrev Word := BitVec 32

/-- The primes below 312, of which there are sixty-four. -/
def primes : List Nat :=
  (List.range 312).filter fun n => decide (2 ≤ n) && (List.range' 2 (n - 2)).all fun d => decide (n % d ≠ 0)

theorem mem_primes {n : Nat} : n ∈ primes ↔ n < 312 ∧ n.Prime := by
  have hdiv : (∀ d, 2 ≤ d → d < n → ¬d ∣ n) ↔ ∀ d ∈ List.range' 2 (n - 2), n % d ≠ 0 := by
    constructor
    · intro h d hd hzero
      rw [List.mem_range'_1] at hd
      exact h d hd.1 (by omega) (Nat.dvd_of_mod_eq_zero hzero)
    · intro h d htwo hlt hdvd
      exact h d (List.mem_range'_1.mpr ⟨htwo, by omega⟩) (Nat.mod_eq_zero_of_dvd hdvd)
  rw [primes, List.mem_filter, List.mem_range, Nat.prime_def_lt', hdiv]
  simp only [Bool.and_eq_true, decide_eq_true_eq, List.all_eq_true]

/-- The first thirty-two bits of the fractional part of the `n`-th root of `p`. -/
def rootBits (n p : Nat) : Word := .ofNat 32 (Nat.nthRoot n (p * 2 ^ (32 * n)))

end Yuva.Roots
