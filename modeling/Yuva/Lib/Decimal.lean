/-
# `Yuva.Lib.Decimal` — numbers as decimal text

`decimal x` is `x` in ASCII digits, the most significant first and without leading zeros.
A number is determined by its text (`decimal_inj`), and the text holds digits only, so that
whatever stands before the first other byte can be split off (`append_sep_inj`).

Nothing here mentions a particular format.
-/
import Mathlib.Data.Nat.Digits.Lemmas

namespace Yuva.Decimal

/-- `b'0' + d`. -/
def digitByte (d : Nat) : UInt8 := 0x30 + .ofNat d

def decimal (x : Nat) : List UInt8 :=
  if x = 0 then [0x30] else ((Nat.digits 10 x).map digitByte).reverse

theorem toNat_digitByte {d : Nat} (h : d < 10) : (digitByte d).toNat = 48 + d := by
  rw [digitByte, UInt8.toNat_add, UInt8.toNat_ofNat_of_lt' (Nat.lt_trans h (by decide))]
  exact Nat.mod_eq_of_lt (by change 48 + d < 256; omega)

theorem digitByte_inj {d e : Nat} (hd : d < 10) (he : e < 10) (h : digitByte d = digitByte e) : d = e := by
  have hnat := congrArg UInt8.toNat h
  rw [toNat_digitByte hd, toNat_digitByte he] at hnat
  omega

/-- A text of digits holds no byte below the digits. -/
theorem not_mem_decimal {x : Nat} {b : UInt8} (hb : b < 0x30) : b ∉ decimal x := by
  intro hmem
  rw [decimal] at hmem
  split at hmem
  · rw [List.mem_singleton] at hmem
    rw [hmem] at hb
    exact absurd hb (by decide)
  · obtain ⟨d, hd, rfl⟩ := List.mem_map.mp (List.mem_reverse.mp hmem)
    have hlt : (digitByte d).toNat < 48 := UInt8.lt_iff_toNat_lt.mp hb
    rw [toNat_digitByte (Nat.digits_lt_base (by decide) hd)] at hlt
    omega

theorem map_digitByte_inj {ds es : List Nat} (hd : ∀ d ∈ ds, d < 10) (he : ∀ e ∈ es, e < 10)
    (h : ds.map digitByte = es.map digitByte) : ds = es := by
  induction ds generalizing es with
  | nil => exact (List.map_eq_nil_iff.mp h.symm).symm
  | cons d ds ih =>
      cases es with
      | nil => cases h
      | cons e es =>
          rw [List.map_cons, List.map_cons, List.cons.injEq] at h
          rw [digitByte_inj (hd d List.mem_cons_self) (he e List.mem_cons_self) h.1,
            ih (fun x hx => hd x (List.mem_cons_of_mem _ hx)) (fun x hx => he x (List.mem_cons_of_mem _ hx)) h.2]

theorem decimal_inj {x y : Nat} (h : decimal x = decimal y) : x = y := by
  have hdigits : ∀ n d, d ∈ Nat.digits 10 n → d < 10 := fun n d hd => Nat.digits_lt_base (by decide) hd
  -- zero is the only number whose text starts with the digit zero
  have hzero : ∀ n, n ≠ 0 → decimal n ≠ [0x30] := by
    intro n hn hdec
    rw [decimal, if_neg hn] at hdec
    have hone : (Nat.digits 10 n).map digitByte = [0].map digitByte := List.reverse_injective hdec
    have heq := map_digitByte_inj (hdigits n) (by simp) hone
    have hval := Nat.ofDigits_digits 10 n
    rw [heq] at hval
    exact hn hval.symm
  by_cases hx : x = 0
  · by_cases hy : y = 0
    · rw [hx, hy]
    · rw [hx, decimal, if_pos rfl] at h
      exact absurd h.symm (hzero y hy)
  · by_cases hy : y = 0
    · rw [hy] at h
      exact absurd h (hzero x hx)
    · rw [decimal, decimal, if_neg hx, if_neg hy] at h
      exact Nat.digits_inj_iff.mp (map_digitByte_inj (hdigits x) (hdigits y) (List.reverse_injective h))

/-- What stands before the first separator, and what behind it. -/
theorem append_sep_inj {α : Type} {sep : α} {a b r s : List α} (ha : sep ∉ a) (hb : sep ∉ b)
    (h : a ++ sep :: r = b ++ sep :: s) : a = b ∧ r = s := by
  induction a generalizing b with
  | nil =>
      cases b with
      | nil => exact ⟨rfl, (List.cons.inj h).2⟩
      | cons y b => exact absurd ((List.cons.inj h).1 ▸ List.mem_cons_self) hb
  | cons x a ih =>
      cases b with
      | nil => exact absurd ((List.cons.inj h).1 ▸ List.mem_cons_self) ha
      | cons y b =>
          obtain ⟨rfl, htail⟩ := List.cons.inj h
          obtain ⟨rfl, hrest⟩ := ih (fun hm => ha (List.mem_cons_of_mem _ hm))
            (fun hm => hb (List.mem_cons_of_mem _ hm)) htail
          exact ⟨rfl, hrest⟩

end Yuva.Decimal
