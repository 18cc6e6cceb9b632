/-
# `Yuva.Lib.Digits` — digits with a checksum

`digit b x i` is the digit of weight `b ^ i` of `x`, and `lack m n f` is what the first `n` values
of `f` lack, all together, to `m` each.  Raising a value lowers what is lacking, and a number whose
digits are all raised is raised; so digits that are followed by the digits of their lack can never
be raised, all together, into others (`eq_of_raised`).

Nothing here mentions a particular format.
-/
import Mathlib.Algebra.Order.BigOperators.Group.Finset

namespace Yuva.Digits

open Finset

def digit (b x i : Nat) : Nat := x / b ^ i % b

theorem digit_succ (b x i : Nat) : digit b x (i + 1) = digit b (x / b) i := by
  rw [digit, digit, Nat.pow_succ', Nat.div_div_eq_div_mul]

theorem digit_div_pow (b x i j : Nat) : digit b (x / b ^ j) i = digit b x (j + i) := by
  rw [digit, digit, Nat.pow_add, Nat.div_div_eq_div_mul]

theorem digit_mul_pow {b : Nat} (hb : 0 < b) (x i j : Nat) : digit b (x * b ^ j) (j + i) = digit b x i := by
  rw [← digit_div_pow, Nat.mul_div_cancel _ (Nat.pow_pos hb)]

/-- A digit of a number is a digit of its low part. -/
theorem digit_mod_pow {b i k : Nat} (h : i < k) (x : Nat) : digit b (x % b ^ k) i = digit b x i := by
  have hpow : b ^ k = b ^ i * (b * b ^ (k - i - 1)) := by
    rw [← Nat.pow_succ', ← Nat.pow_add]
    congr 1
    omega
  rw [digit, digit, hpow, Nat.mod_mul_right_div_self, Nat.mod_mul_right_mod]

/-- A number whose digits are nowhere larger is not larger. -/
theorem le_of_digit_le {b k x y : Nat} (hx : x < b ^ k) (h : ∀ i < k, digit b x i ≤ digit b y i) : x ≤ y := by
  induction k generalizing x y with
  | zero =>
      rw [Nat.pow_zero] at hx
      omega
  | succ k ih =>
      have htail : x / b ≤ y / b := by
        refine ih (Nat.div_lt_of_lt_mul (Nat.pow_succ' ▸ hx)) ?_
        intro i hi
        rw [← digit_succ, ← digit_succ]
        exact h (i + 1) (by omega)
      have hhead : x % b ≤ y % b := by
        have h0 := h 0 (by omega)
        rwa [digit, digit, Nat.pow_zero, Nat.div_one, Nat.div_one] at h0
      calc x = b * (x / b) + x % b := (Nat.div_add_mod x b).symm
        _ ≤ b * (y / b) + y % b := Nat.add_le_add (Nat.mul_le_mul_left b htail) hhead
        _ = y := Nat.div_add_mod y b

theorem eq_of_digit_eq {b k x y : Nat} (hx : x < b ^ k) (hy : y < b ^ k)
    (h : ∀ i < k, digit b x i = digit b y i) : x = y :=
  Nat.le_antisymm (le_of_digit_le hx fun i hi => (h i hi).le) (le_of_digit_le hy fun i hi => (h i hi).ge)

/-- What `n` values lack to `m` each. -/
def lack (m n : Nat) (f : Nat → Nat) : Nat := ∑ i ∈ range n, (m - f i)

theorem lack_le (m n : Nat) (f : Nat → Nat) : lack m n f ≤ n * m := by
  calc lack m n f ≤ ∑ _i ∈ range n, m := sum_le_sum fun i _ => Nat.sub_le m (f i)
    _ = n * m := by rw [sum_const_nat fun _ _ => rfl, card_range]

/-- A sum that wraps around at every step is the sum, wrapped around. -/
theorem foldl_add_mod (M n acc : Nat) (f : Nat → Nat) (hacc : acc < M) :
    (List.range n).foldl (fun s i => (s + f i) % M) acc = (acc + ∑ i ∈ range n, f i) % M := by
  induction n with
  | zero => rw [List.range_zero, List.foldl_nil, range_zero, sum_empty, Nat.add_zero, Nat.mod_eq_of_lt hacc]
  | succ n ih =>
      rw [List.range_succ, List.foldl_append, ih, List.foldl_cons, List.foldl_nil, sum_range_succ,
        Nat.mod_add_mod, Nat.add_assoc]

variable {m n : Nat} {f g : Nat → Nat}

/-- Values that were raised and lack as much as before were not raised. -/
theorem eq_of_lack_le (hg : ∀ i < n, g i ≤ m) (hle : ∀ i < n, f i ≤ g i) (hlack : lack m n f ≤ lack m n g) :
    ∀ i < n, f i = g i := by
  have hterms : ∀ i ∈ range n, m - g i ≤ m - f i := by
    intro i hi
    exact Nat.sub_le_sub_left (hle i (mem_range.mp hi)) m
  have hsum : ∑ i ∈ range n, (m - g i) = ∑ i ∈ range n, (m - f i) := Nat.le_antisymm (sum_le_sum hterms) hlack
  intro i hi
  have heq := (sum_eq_sum_iff_of_le hterms).mp hsum i (mem_range.mpr hi)
  have hfg := hle i hi
  have hgm := hg i hi
  omega

/-- Digits and the digits of their lack, all raised, are what they were. -/
theorem eq_of_raised {b k : Nat} (hfit : n * m < b ^ k) (hg : ∀ i < n, g i ≤ m) (hle : ∀ i < n, f i ≤ g i)
    (hsum : ∀ i < k, digit b (lack m n f) i ≤ digit b (lack m n g) i) : ∀ i < n, f i = g i :=
  eq_of_lack_le hg hle (le_of_digit_le (Nat.lt_of_le_of_lt (lack_le m n f) hfit) hsum)

end Yuva.Digits
