/-
# `Yuva.Lms.Checksum` — one signature does not give another

A one-time signature shows each chain at the coefficient of the digest, and whoever has it can
advance every chain further.  Behind the digest stands a checksum, and its coefficients are the
digits of what the digest's coefficients lack to their maximum (`coef_cksm`): the shift puts them at
the top of the 16 bits and loses none.  So to raise the digest's coefficients is to lower the
checksum's:

    the coefficients of a digest determine it                     (`node_eq`)
    no coefficient lower anywhere, checksum included: the same    (`node_eq_of_le`)

and the coefficients of two digests are never comparable.
-/
import Yuva.Lms.Verify
import Yuva.Lib.Digits

namespace Yuva.Lms

open Yuva.Bytes Yuva.Digits

/-- Fields of `w` bits, `v` to a byte; the checksum of 32 bytes is `k` of them, shifted to the top of
16 bits. -/
structure Fields (w v k ls : Nat) : Prop where
  byte : w * v = 8
  shift : w * k + ls = 16
  fits : N * v * (2 ^ w - 1) < (2 ^ w) ^ k

theorem otsParams_fields {otstype w p ls : Nat} (h : otsParams otstype = some (w, p, ls)) :
    ∃ v k, Fields w v k ls ∧ p = N * v + k := by
  obtain ⟨-, rfl, rfl, rfl⟩ | ⟨-, rfl, rfl, rfl⟩ := otsParams_cases h
  · exact ⟨2, 3, ⟨rfl, rfl, by decide⟩, rfl⟩
  · exact ⟨1, 2, ⟨rfl, rfl, by decide⟩, rfl⟩

section

variable {w v k ls : Nat} (hF : Fields w v k ls)

include hF

theorem Fields.width_pos : 0 < w := by
  have hbyte := hF.byte
  rcases Nat.eq_zero_or_pos w with rfl | h
  · omega
  · exact h

theorem Fields.perByte_pos : 0 < v := by
  have hbyte := hF.byte
  rcases Nat.eq_zero_or_pos v with rfl | h
  · omega
  · exact h

theorem Fields.byte_values : (2 ^ w) ^ v = 256 := by
  rw [← Nat.pow_mul, hF.byte]

theorem Fields.messageFields : 8 * N / w = N * v := by
  rw [← hF.byte, Nat.mul_assoc, Nat.mul_div_cancel_left _ hF.width_pos, Nat.mul_comm]

/-- The checksum's fields are fields of two bytes. -/
theorem Fields.two_bytes : k ≤ 2 * v := by
  refine Nat.le_of_mul_le_mul_left ?_ hF.width_pos
  have hbyte := hF.byte
  have hshift := hF.shift
  rw [Nat.mul_left_comm]
  omega

theorem Fields.shift_fields : ls = w * (2 * v - k) := by
  have hbyte := hF.byte
  have hshift := hF.shift
  rw [Nat.mul_sub, Nat.mul_left_comm]
  omega

/-- Coefficients are the digits of the bytes, the highest first. -/
theorem coef_eq_digit (s : List UInt8) (i : Nat) :
    coef s i w = digit (2 ^ w) (s.getD (i / v) 0).toNat (v - 1 - i % v) := by
  have hv : 8 / w = v := by rw [← hF.byte, Nat.mul_div_cancel_left _ hF.width_pos]
  have hbyte : i * w / 8 = i / v := by
    rw [← hF.byte, Nat.mul_comm w v, Nat.mul_div_mul_right _ _ hF.width_pos]
  have hshift : 8 - (w * (i % v) + w) = w * (v - 1 - i % v) := by
    rw [← hF.byte, ← Nat.mul_succ, ← Nat.mul_sub]
    congr 1
    omega
  simp only [coef, digit, hv, hbyte, hshift, Nat.shiftRight_eq_div_pow, Nat.and_two_pow_sub_one_eq_mod,
    Nat.pow_mul]

/-- A digest is determined by its coefficients. -/
theorem node_eq {a b : Node} (h : ∀ i < N * v, coef a.val i w = coef b.val i w) : a = b := by
  refine Subtype.ext (List.ext_getElem (a.property.trans b.property.symm) ?_)
  intro j hja hjb
  have hj : j < N := by
    rw [a.property] at hja
    exact hja
  refine UInt8.toNat_inj.mp (eq_of_digit_eq (b := 2 ^ w) (k := v) ?_ ?_ ?_)
  · rw [hF.byte_values]
    exact UInt8.toNat_lt _
  · rw [hF.byte_values]
    exact UInt8.toNat_lt _
  · -- digit `r` of byte `j` is coefficient `j * v + (v - 1 - r)`
    intro r hr
    have hlt : j * v + (v - 1 - r) < N * v := by
      calc j * v + (v - 1 - r) < j * v + v := by omega
        _ = (j + 1) * v := (Nat.succ_mul j v).symm
        _ ≤ N * v := Nat.mul_le_mul_right v hj
    have hdiv : (j * v + (v - 1 - r)) / v = j := by
      rw [Nat.mul_comm, Nat.mul_add_div hF.perByte_pos, Nat.div_eq_of_lt (by omega), Nat.add_zero]
    have hmod : v - 1 - (j * v + (v - 1 - r)) % v = r := by
      rw [Nat.mul_comm, Nat.mul_add_mod, Nat.mod_eq_of_lt (by omega)]
      omega
    have hcoef := h _ hlt
    rwa [coef_eq_digit hF, coef_eq_digit hF, hdiv, hmod, List.getD_eq_getElem _ _ hja,
      List.getD_eq_getElem _ _ hjb] at hcoef

/-! ## The checksum -/

/-- What the coefficients of a digest lack to their maximum. -/
def sumLack (q : List UInt8) (w v : Nat) : Nat := lack (2 ^ w - 1) (N * v) fun i => coef q i w

theorem sumLack_lt (q : List UInt8) : sumLack q w v < (2 ^ w) ^ k :=
  Nat.lt_of_le_of_lt (lack_le _ _ _) hF.fits

/-- Neither the sum nor the shift loses a bit. -/
theorem cksm_eq (q : List UInt8) : cksm q w ls = sumLack q w v * 2 ^ ls := by
  have hpow : (2 ^ w) ^ k * 2 ^ ls = 2 ^ 16 := by rw [← Nat.pow_mul, ← Nat.pow_add, hF.shift]
  have hlt := sumLack_lt hF q
  have htop : sumLack q w v * 2 ^ ls < 2 ^ 16 := hpow ▸ Nat.mul_lt_mul_of_pos_right hlt (Nat.two_pow_pos ls)
  have hsum : sumLack q w v < 2 ^ 16 := Nat.lt_of_le_of_lt (Nat.le_mul_of_pos_right _ (Nat.two_pow_pos ls)) htop
  have hfold : (List.range (N * v)).foldl (fun sum i => (sum + (2 ^ w - 1 - coef q i w)) % 2 ^ 32) 0 =
      sumLack q w v := by
    rw [foldl_add_mod _ _ _ (fun i => 2 ^ w - 1 - coef q i w) (by decide), Nat.zero_add]
    exact Nat.mod_eq_of_lt (Nat.lt_trans hsum (by decide))
  rw [cksm, hF.messageFields]
  rw [hfold, Nat.shiftLeft_eq, Nat.mod_eq_of_lt (by omega)]
  exact (Nat.and_two_pow_sub_one_eq_mod _ 16).trans (Nat.mod_eq_of_lt htop)

omit hF in
theorem getD_be_two {j : Nat} (h : j < 2) (c : Nat) : ((be 2 c).getD j 0).toNat = c / 256 ^ (1 - j) % 256 := by
  match j, h with
  | 0, _ => simp [be, le]
  | 1, _ => simp [be, le]

variable (a : Node)

theorem coef_message {i : Nat} (hi : i < N * v) : coef (withCksm a.val w ls) i w = coef a.val i w := by
  have hbyte : i / v < a.val.length := by
    rw [a.property]
    exact Nat.div_lt_of_lt_mul (Nat.mul_comm N v ▸ hi)
  rw [coef_eq_digit hF, coef_eq_digit hF, withCksm, List.getD_append _ _ _ _ hbyte]

/-- Behind the digest come the digits of its lack, the highest first. -/
theorem coef_cksm {r : Nat} (hr : r < k) :
    coef (withCksm a.val w ls) (N * v + r) w = digit (2 ^ w) (sumLack a.val w v) (k - 1 - r) := by
  have hv := hF.perByte_pos
  have htwo := hF.two_bytes
  have hdiv : (N * v + r) / v = N + r / v := by rw [Nat.mul_comm, Nat.mul_add_div hv]
  have hmod : (N * v + r) % v = r % v := by rw [Nat.mul_comm, Nat.mul_add_mod]
  have hj : r / v < 2 := Nat.div_lt_of_lt_mul (by rw [Nat.mul_comm]; omega)
  have hlen : N = a.val.length := a.property.symm
  have hbyte : (withCksm a.val w ls).getD (N + r / v) 0 = (be 2 (cksm a.val w ls)).getD (r / v) 0 := by
    rw [withCksm, List.getD_append_right _ _ _ _ (hlen ▸ Nat.le_add_right N _), ← hlen, Nat.add_sub_cancel_left]
  have hindex : v * (1 - r / v) + (v - 1 - r % v) = (2 * v - k) + (k - 1 - r) := by
    have hr' := Nat.div_add_mod r v
    have hlt := Nat.mod_lt r hv
    obtain h | h : r / v = 0 ∨ r / v = 1 := by
      have hnonneg := Nat.zero_le (r / v)
      omega
    all_goals
      rw [h] at hr' ⊢
      omega
  calc coef (withCksm a.val w ls) (N * v + r) w
      = digit (2 ^ w) (cksm a.val w ls / 256 ^ (1 - r / v) % 256) (v - 1 - r % v) := by
        rw [coef_eq_digit hF, hdiv, hmod, hbyte, getD_be_two hj]
    _ = digit (2 ^ w) (cksm a.val w ls) (v * (1 - r / v) + (v - 1 - r % v)) := by
        rw [← hF.byte_values, digit_mod_pow (by omega), ← Nat.pow_mul, digit_div_pow]
    _ = digit (2 ^ w) (sumLack a.val w v * (2 ^ w) ^ (2 * v - k)) ((2 * v - k) + (k - 1 - r)) := by
        rw [cksm_eq hF, hindex, ← Nat.pow_mul, ← hF.shift_fields]
    _ = digit (2 ^ w) (sumLack a.val w v) (k - 1 - r) := digit_mul_pow (Nat.two_pow_pos w) _ _ _

/-- A digest whose coefficients, with those of its checksum, are nowhere larger is the same digest. -/
theorem node_eq_of_le {a b : Node}
    (h : ∀ i < N * v + k, coef (withCksm a.val w ls) i w ≤ coef (withCksm b.val w ls) i w) : a = b := by
  refine node_eq hF (eq_of_raised (hF.fits) (fun i _ => coef_le b.val i w) ?_ ?_)
  · intro i hi
    have hle := h i (by omega)
    rwa [coef_message hF a hi, coef_message hF b hi] at hle
  · intro i hi
    have hle := h (N * v + (k - 1 - i)) (by omega)
    have hback : k - 1 - (k - 1 - i) = i := by omega
    rwa [coef_cksm hF a (by omega), coef_cksm hF b (by omega), hback] at hle

theorem exists_coef_lt {a b : Node} (hab : a ≠ b) :
    ∃ i < N * v + k, coef (withCksm b.val w ls) i w < coef (withCksm a.val w ls) i w := by
  by_contra hnone
  push Not at hnone
  exact hab (node_eq_of_le hF hnone)

end

/-- **Non-dominance.**  Of two distinct digests each has a coefficient, checksum included, that is
smaller than the other's; so no number of steps, chain by chain, leads from the coefficients of one to
those of the other. -/
theorem coef_incomparable {otstype w p ls : Nat} (h : otsParams otstype = some (w, p, ls)) {a b : Node}
    (hab : a ≠ b) :
    (∃ i < p, coef (withCksm a.val w ls) i w < coef (withCksm b.val w ls) i w) ∧
      (∃ i < p, coef (withCksm b.val w ls) i w < coef (withCksm a.val w ls) i w) ∧
      ∀ steps : Nat → Nat, ∃ i < p, coef (withCksm a.val w ls) i w + steps i ≠ coef (withCksm b.val w ls) i w := by
  obtain ⟨v, k, hF, rfl⟩ := otsParams_fields h
  obtain ⟨i, hi, hlt⟩ := exists_coef_lt hF hab
  refine ⟨exists_coef_lt hF hab.symm, ⟨i, hi, hlt⟩, fun steps => ⟨i, hi, ?_⟩⟩
  omega

theorem coef_incomparable_zero_one :
    (∃ i < 67, coef (withCksm (be 32 0) 4 4) i 4 < coef (withCksm (be 32 1) 4 4) i 4) ∧
      (∃ i < 67, coef (withCksm (be 32 1) 4 4) i 4 < coef (withCksm (be 32 0) 4 4) i 4) ∧
      ∀ steps : Nat → Nat,
        ∃ i < 67, coef (withCksm (be 32 0) 4 4) i 4 + steps i ≠ coef (withCksm (be 32 1) 4 4) i 4 := by
  have hdistinct : (⟨be 32 0, length_be 32 0⟩ : Node) ≠ ⟨be 32 1, length_be 32 1⟩ := by decide
  have hall := coef_incomparable (rfl : otsParams 3 = some (4, 67, 4)) hdistinct
  exact hall

end Yuva.Lms
