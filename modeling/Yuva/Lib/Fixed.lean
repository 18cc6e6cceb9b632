/-
# `Yuva.Lib.Fixed` — fixed-point functions that keep their order

Integer leaves of a score, and why rounding does not reverse an inequality.

    logScaled s x      the leading bit of `x`, then a straight line up to the next power of two
    t a s / (t b + c)  a fraction that rises with `t` and falls with `c`
    spline k n y c     straight lines between the knots `y 0 … y n`, `2 ^ k` apart

Inside one segment each is the floor of a line; where two segments meet, the value at the
corner bounds the lines on both sides.  A sum that stops at the largest word is the smaller of
that word and the sum (`foldl_satI`), so it does not depend on the order either.

Nothing here mentions a particular score.
-/
import Mathlib.Algebra.BigOperators.Group.List.Basic
import Mathlib.Algebra.Order.BigOperators.Group.List
import Mathlib.Tactic.Linarith
import Yuva.Lib.Machine

namespace Yuva.Fixed

open Yuva.Machine

/-! ## The logarithm -/

/-- The binary logarithm in units of `1 / s`. -/
def logScaled (s x : Nat) : Nat :=
  if x ≤ 1 then 0 else x.log2 * s + (x - 2 ^ x.log2) * s / 2 ^ x.log2

theorem segment_lt {s x : Nat} (hs : 0 < s) (hx : 2 ≤ x) : (x - 2 ^ x.log2) * s / 2 ^ x.log2 < s := by
  have hlow := Nat.log2_self_le (n := x) (by omega)
  have hhigh := Nat.lt_log2_self (n := x)
  rw [Nat.pow_succ] at hhigh
  apply Nat.div_lt_of_lt_mul
  exact Nat.mul_lt_mul_of_pos_right (by omega) hs

theorem logScaled_lt {s x k : Nat} (hs : 0 < s) (hx : x < 2 ^ k) : logScaled s x < k * s + 1 := by
  rw [logScaled]
  split_ifs with hone
  · exact Nat.succ_pos _
  · have hseg := segment_lt hs (x := x) (by omega)
    have hlog : x.log2 + 1 ≤ k := (Nat.log2_lt (by omega)).2 hx
    have := Nat.mul_le_mul_right s hlog
    rw [Nat.add_mul] at this
    omega

theorem logScaled_mono {s x y : Nat} (h : x ≤ y) : logScaled s x ≤ logScaled s y := by
  rcases Nat.eq_zero_or_pos s with rfl | hs
  · simp [logScaled]
  by_cases hx : x ≤ 1
  · rw [logScaled, if_pos hx]
    exact Nat.zero_le _
  rw [logScaled, if_neg hx, logScaled, if_neg (by omega)]
  have hlog : x.log2 ≤ y.log2 := by
    rw [Nat.le_log2 (by omega)]
    exact Nat.le_trans (Nat.log2_self_le (by omega)) h
  rcases Nat.eq_or_lt_of_le hlog with heq | hlt
  · -- one segment, one line
    rw [heq]
    exact Nat.add_le_add_left (Nat.div_le_div_right (Nat.mul_le_mul_right s (Nat.sub_le_sub_right h _))) _
  · -- the line of a lower segment ends below the corner
    have hseg := segment_lt hs (x := x) (by omega)
    calc x.log2 * s + (x - 2 ^ x.log2) * s / 2 ^ x.log2
        ≤ x.log2 * s + s := Nat.add_le_add_left (Nat.le_of_lt hseg) _
      _ = (x.log2 + 1) * s := (Nat.succ_mul _ _).symm
      _ ≤ y.log2 * s := Nat.mul_le_mul_right s hlt
      _ ≤ y.log2 * s + (y - 2 ^ y.log2) * s / 2 ^ y.log2 := Nat.le_add_right _ _

/-! ## The saturating fraction -/

theorem ratio_mono {t t' a b c s : Nat} (hc : 0 < c) (h : t ≤ t') :
    t * a * s / (t * b + c) ≤ t' * a * s / (t' * b + c) := by
  obtain ⟨d, rfl⟩ := Nat.exists_eq_add_of_le h
  rw [Nat.le_div_iff_mul_le (by omega)]
  have hq : t * a * s / (t * b + c) * (t * b + c) ≤ t * a * s := Nat.div_mul_le_self _ _
  generalize t * a * s / (t * b + c) = q at hq ⊢
  have hslope : q * b ≤ a * s ∨ q = 0 := by
    rcases Nat.eq_zero_or_pos t with rfl | ht
    · simp only [Nat.zero_mul, Nat.zero_add, Nat.le_zero, Nat.mul_eq_zero] at hq
      exact .inr (hq.resolve_right (Nat.ne_of_gt hc))
    · refine .inl (Nat.le_of_mul_le_mul_left ?_ ht)
      calc t * (q * b) ≤ t * (q * b) + q * c := Nat.le_add_right _ _
        _ = q * (t * b + c) := by ring
        _ ≤ t * a * s := hq
        _ = t * (a * s) := Nat.mul_assoc _ _ _
  rcases hslope with hslope | rfl
  · have hd := Nat.mul_le_mul_left d hslope
    calc q * ((t + d) * b + c) = q * (t * b + c) + d * (q * b) := by ring
      _ ≤ t * a * s + d * (a * s) := Nat.add_le_add hq hd
      _ = (t + d) * a * s := by ring
  · rw [Nat.zero_mul]
    exact Nat.zero_le _

theorem ratio_anti {t a b c c' s : Nat} (hc : 0 < c) (h : c ≤ c') :
    t * a * s / (t * b + c') ≤ t * a * s / (t * b + c) :=
  Nat.div_le_div_left (Nat.add_le_add_left h _) (by omega)

/-! ## The straight line -/

def lerp (k : Nat) (y₀ y₁ f : Int) : Int := y₀ + (y₁ - y₀) * f / 2 ^ k

theorem lerp_zero (k : Nat) (y₀ y₁ : Int) : lerp k y₀ y₁ 0 = y₀ := by
  rw [lerp, Int.mul_zero, Int.zero_ediv, Int.add_zero]

theorem lerp_full (k : Nat) (y₀ y₁ : Int) : lerp k y₀ y₁ (2 ^ k) = y₁ := by
  rw [lerp, Int.mul_ediv_cancel _ (ne_of_gt (Int.pow_pos (by decide)))]
  omega

theorem lerp_mono {k : Nat} {y₀ y₁ f f' : Int} (hy : y₀ ≤ y₁) (hf : f ≤ f') :
    lerp k y₀ y₁ f ≤ lerp k y₀ y₁ f' := by
  have hnum := Int.mul_le_mul_of_nonneg_left hf (by omega : 0 ≤ y₁ - y₀)
  exact Int.add_le_add_left (Int.ediv_le_ediv (Int.pow_pos (by decide)) hnum) _

theorem lerp_anti {k : Nat} {y₀ y₁ f f' : Int} (hy : y₁ ≤ y₀) (hf : f ≤ f') :
    lerp k y₀ y₁ f' ≤ lerp k y₀ y₁ f := by
  have hnum := Int.mul_le_mul_of_nonpos_left (by omega : y₁ - y₀ ≤ 0) hf
  exact Int.add_le_add_left (Int.ediv_le_ediv (Int.pow_pos (by decide)) hnum) _

/-- Every point of the line lies between its two ends. -/
theorem lerp_between {k : Nat} {y₀ y₁ f : Int} (hlo : 0 ≤ f) (hhi : f ≤ 2 ^ k) :
    min y₀ y₁ ≤ lerp k y₀ y₁ f ∧ lerp k y₀ y₁ f ≤ max y₀ y₁ := by
  rcases le_total y₀ y₁ with hy | hy
  · have h0 := lerp_mono (k := k) hy hlo
    have h1 := lerp_mono (k := k) hy hhi
    rw [lerp_zero] at h0
    rw [lerp_full] at h1
    omega
  · have h0 := lerp_anti (k := k) hy hlo
    have h1 := lerp_anti (k := k) hy hhi
    rw [lerp_zero] at h0
    rw [lerp_full] at h1
    omega

/-! ## A table of knots -/

/-- The straight lines between the knots `y 0 … y n`, `2 ^ k` apart; the last knot belongs to
the last line. -/
def spline (k n : Nat) (y : Nat → Int) (c : Int) : Int :=
  let seg := min (c / 2 ^ k).toNat (n - 1)
  lerp k (y seg) (y (seg + 1)) (c - seg * 2 ^ k)

/-- The line a point belongs to, and where on it. -/
theorem segment_spec {k n : Nat} {c : Int} (hn : 0 < n) (hlo : 0 ≤ c) (hhi : c ≤ n * 2 ^ k) :
    ∃ seg : Nat, seg < n ∧ min (c / 2 ^ k).toNat (n - 1) = seg ∧ 0 ≤ c - seg * 2 ^ k ∧ c - seg * 2 ^ k ≤ 2 ^ k := by
  have hpow : (0 : Int) < 2 ^ k := Int.pow_pos (by decide)
  have hfloor := Int.ediv_mul_le c (ne_of_gt hpow)
  have hceil := Int.lt_ediv_add_one_mul_self c hpow
  have hquot : 0 ≤ c / 2 ^ k := Int.ediv_nonneg hlo (le_of_lt hpow)
  rw [Int.add_mul, Int.one_mul] at hceil
  refine ⟨_, by omega, rfl, ?_⟩
  rcases le_or_gt n (c / 2 ^ k).toNat with hend | hin
  · -- only the last knot is that far out
    have hle : (n : Int) * 2 ^ k ≤ c / 2 ^ k * 2 ^ k := Int.mul_le_mul_of_nonneg_right (by omega) (le_of_lt hpow)
    have hlast : (((n - 1 : Nat) : Int)) * 2 ^ k = n * 2 ^ k - 2 ^ k := by
      rw [Nat.cast_sub hn, Int.sub_mul, Nat.cast_one, Int.one_mul]
    rw [Nat.min_eq_right (by omega), hlast]
    omega
  · rw [Nat.min_eq_left (by omega), Int.toNat_of_nonneg hquot]
    omega

theorem spline_between {k n : Nat} (y : Nat → Int) {c : Int} (hn : 0 < n) (hlo : 0 ≤ c) (hhi : c ≤ n * 2 ^ k) :
    ∃ seg : Nat, seg < n ∧ (seg : Int) * 2 ^ k ≤ c ∧ c ≤ (seg + 1) * 2 ^ k ∧
      min (y seg) (y (seg + 1)) ≤ spline k n y c ∧ spline k n y c ≤ max (y seg) (y (seg + 1)) := by
  obtain ⟨seg, hseg, hmin, hf0, hf1⟩ := segment_spec hn hlo hhi
  refine ⟨seg, hseg, by omega, by rw [Int.add_mul, Int.one_mul]; omega, ?_⟩
  rw [spline, hmin]
  exact lerp_between hf0 hf1

/-- What orders the points of every single line orders those of the whole table: two lines meet
in a knot. -/
theorem spline_rel {k n : Nat} {y : Nat → Int} {R : Int → Int → Prop} (htrans : ∀ {a b c}, R a b → R b c → R a c)
    (hline : ∀ i < n, ∀ f f' : Int, f ≤ f' → R (lerp k (y i) (y (i + 1)) f) (lerp k (y i) (y (i + 1)) f'))
    (hn : 0 < n) {c c' : Int} (hlo : 0 ≤ c) (hle : c ≤ c') (hhi : c' ≤ n * 2 ^ k) :
    R (spline k n y c) (spline k n y c') := by
  have hpow : (0 : Int) < 2 ^ k := Int.pow_pos (by decide)
  obtain ⟨i, hi, hmin, hf0, hf1⟩ := segment_spec hn hlo (hle.trans hhi)
  obtain ⟨j, hj, hmin', hg0, hg1⟩ := segment_spec hn (hlo.trans hle) hhi
  have hij : i ≤ j := by
    have := Int.ediv_le_ediv hpow hle
    omega
  rw [spline, spline, hmin, hmin']
  rcases Nat.eq_or_lt_of_le hij with rfl | hlt
  · exact hline i hi _ _ (by omega)
  · have hend := hline i hi _ _ hf1
    rw [lerp_full] at hend
    have hstart := hline j hj _ _ hg0
    rw [lerp_zero] at hstart
    have hknots : ∀ d, i + 1 + d < n → R (y (i + 1)) (y (i + 1 + d)) := by
      intro d
      induction d with
      | zero =>
          intro hd
          have hself := hline (i + 1) hd 0 0 (le_refl 0)
          rwa [lerp_zero] at hself
      | succ d ih =>
          intro hd
          have hnext := hline (i + 1 + d) (by omega) 0 (2 ^ k) (le_of_lt hpow)
          rw [lerp_zero, lerp_full] at hnext
          exact htrans (ih (by omega)) hnext
    obtain ⟨d, rfl⟩ := Nat.exists_eq_add_of_le hlt
    exact htrans hend (htrans (hknots d hj) hstart)

theorem spline_mono {k n : Nat} {y : Nat → Int} (hy : ∀ i < n, y i ≤ y (i + 1)) (hn : 0 < n) {c c' : Int} (hlo : 0 ≤ c)
    (hle : c ≤ c') (hhi : c' ≤ n * 2 ^ k) : spline k n y c ≤ spline k n y c' :=
  spline_rel (R := fun a b => a ≤ b) le_trans (fun i hi _ _ => lerp_mono (hy i hi)) hn hlo hle hhi

theorem spline_anti {k n : Nat} {y : Nat → Int} (hy : ∀ i < n, y (i + 1) ≤ y i) (hn : 0 < n) {c c' : Int} (hlo : 0 ≤ c)
    (hle : c ≤ c') (hhi : c' ≤ n * 2 ^ k) : spline k n y c' ≤ spline k n y c :=
  spline_rel (R := fun a b => b ≤ a) (fun hab hbc => hbc.trans hab) (fun i hi _ _ => lerp_anti (hy i hi)) hn hlo hle hhi

/-! ## The saturating sum -/

/-- Summands that are not negative: the sum, or the largest word. -/
theorem foldl_satI {w : Nat} {vs : List Int} (hvs : ∀ v ∈ vs, 0 ≤ v) {a : Int} (ha : 0 ≤ a)
    (hfits : a < 2 ^ (w - 1)) :
    vs.foldl (fun acc v => satI w (acc + v)) a = min (a + vs.sum) (2 ^ (w - 1) - 1) := by
  induction vs generalizing a with
  | nil =>
      rw [List.foldl_nil, List.sum_nil]
      omega
  | cons v vs ih =>
      have hv := hvs v List.mem_cons_self
      have hrest : 0 ≤ vs.sum := List.sum_nonneg fun u hu => hvs u (List.mem_cons_of_mem v hu)
      have hsat : satI w (a + v) = min (a + v) (2 ^ (w - 1) - 1) := by
        rw [satI]
        omega
      rw [List.foldl_cons, hsat, ih (fun u hu => hvs u (List.mem_cons_of_mem v hu)) (by omega) (by omega),
        List.sum_cons]
      omega

end Yuva.Fixed
