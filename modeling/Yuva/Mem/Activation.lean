/-
# `Yuva.Mem.Activation` — the activation keeps its order

`log2_fixed`, `ln_fixed` and `bla_raw` of `tb-encode/src/memscore.rs` with the machine words they
compute in.  `none` is a panic: a sum, difference or product that leaves its word.

**Proved here.**  Up to an age of `2 ^ 53` no word overflows, and the activation does not fall
when the access count rises nor rise when the age does (`blaRaw_ordered`).  So what makes a
record stale, an activation below the threshold of the sweep, is not brought about by a touch and
not undone by age.
-/
import Yuva.Lib.Checked
import Yuva.Lib.Fixed
import Yuva.Mem.Organ

namespace Yuva.Mem

open Yuva.Checked Yuva.Fixed Yuva.Machine

/-- `log2_fixed`, with `63 - leading_zeros` for the leading bit. -/
def log2FixedChecked (x : Nat) : Option Int :=
  if x ≤ 1 then some 0
  else do
    let ip := Nat.log2 x
    let pow ← shl64 1 ip
    let above ← subWord x pow
    let num ← signed 64 (wrapI 64 above * SCALE)
    let frac ← divSigned 64 num (wrapI 64 pow)
    let whole ← signed 64 (ip * SCALE)
    signed 64 (whole + frac)

def lnFixedChecked (x : Nat) : Option Int := do
  let log ← log2FixedChecked x
  let num ← signed 64 (log * LN2_FIXED)
  divSigned 64 num SCALE

def blaRawChecked (count age : Nat) : Option Int := do
  let uses ← word (count + 1)
  let arg ← word (2 * uses)
  let freq ← lnFixedChecked arg
  let next ← word (age + 1)
  let log ← lnFixedChecked next
  let recency ← divSigned 64 log 2
  signed 64 (freq - recency)

/-! ## Below `2 ^ 54` nothing wraps -/

/-- Both forms of the logarithm are the scaled one. -/
theorem log2Fixed_eq {x : Nat} (hx : x < 2 ^ 54) :
    log2Fixed x = (logScaled 1000 x : Nat) ∧ log2FixedChecked x = some (log2Fixed x) := by
  by_cases hone : x ≤ 1
  · rw [log2Fixed, log2FixedChecked, logScaled, if_pos hone, if_pos hone, if_pos hone]
    exact ⟨rfl, rfl⟩
  have hlow := Nat.log2_self_le (n := x) (by omega)
  have hip : x.log2 < 54 := (Nat.log2_lt (by omega)).2 hx
  have hhigh := Nat.lt_log2_self (n := x)
  have hseg := segment_lt (s := 1000) (by decide) (x := x) (by omega)
  rw [log2Fixed, log2FixedChecked, logScaled, if_neg hone, if_neg hone, if_neg hone]
  dsimp only
  rw [shl64_one (by omega), some_bind]
  rw [Nat.pow_succ] at hhigh
  have hpos : 0 < 2 ^ x.log2 := Nat.two_pow_pos _
  generalize 2 ^ x.log2 = pow at hlow hhigh hseg hpos ⊢
  generalize x.log2 = ip at hip ⊢
  have habove : wrapI 64 ((x - pow : Nat) : Int) = (x - pow : Nat) := wrapI64_eq (by omega) (by omega)
  have hpow : wrapI 64 (pow : Int) = pow := wrapI64_eq (by omega) (by omega)
  have hnum : ((x - pow : Nat) : Int) * SCALE = ((x - pow) * 1000 : Nat) := by rw [Nat.cast_mul]; rfl
  have hwhole : (ip : Int) * SCALE = (ip * 1000 : Nat) := by rw [Nat.cast_mul]; rfl
  have hfrac : (((x - pow) * 1000 : Nat) : Int) / (pow : Int) = ((x - pow) * 1000 / pow : Nat) := rfl
  generalize (x - pow) * 1000 / pow = frac at hseg hfrac ⊢
  have hfits : wrapI 64 (((x - pow) * 1000 : Nat) : Int) = ((x - pow) * 1000 : Nat) := wrapI64_eq (by omega) (by omega)
  rw [subWord_eq hlow, some_bind, habove, hpow, hnum, hwhole, hfits, Int.tdiv_eq_ediv_of_nonneg (by omega),
    signed_eq (by omega) (by omega), some_bind, divSigned_eq (by omega) (by omega) (by omega), some_bind, hfrac,
    signed_eq (by omega) (by omega), some_bind, ← Nat.cast_add]
  exact ⟨rfl, signed_eq (by omega) (by omega)⟩

theorem lnFixed_eq {x : Nat} (hx : x < 2 ^ 54) :
    lnFixed x = (logScaled 1000 x * 693 / 1000 : Nat) ∧ lnFixedChecked x = some (lnFixed x) := by
  have hlt := logScaled_lt (s := 1000) (by decide) hx
  obtain ⟨hlog, hrun⟩ := log2Fixed_eq hx
  have hnum : log2Fixed x * LN2_FIXED = (logScaled 1000 x * 693 : Nat) := by rw [hlog, Nat.cast_mul]; rfl
  rw [lnFixed, lnFixedChecked, hrun, some_bind, hnum, SCALE, Int.tdiv_eq_ediv_of_nonneg (by omega),
    signed_eq (by omega) (by omega), some_bind, divSigned_eq (by omega) (by omega) (by decide)]
  exact ⟨rfl, rfl⟩

theorem lnFixed_nonneg {x : Nat} (hx : x < 2 ^ 54) : 0 ≤ lnFixed x := by
  rw [(lnFixed_eq hx).1]
  exact Int.natCast_nonneg _

theorem lnFixed_lt {x : Nat} (hx : x < 2 ^ 54) : lnFixed x < 2 ^ 16 := by
  have hlt := logScaled_lt (s := 1000) (by decide) hx
  rw [(lnFixed_eq hx).1]
  omega

theorem lnFixed_mono {x y : Nat} (h : x ≤ y) (hy : y < 2 ^ 54) : lnFixed x ≤ lnFixed y := by
  have hlog := logScaled_mono (s := 1000) h
  rw [(lnFixed_eq (by omega)).1, (lnFixed_eq hy).1]
  omega

/-! ## The activation -/

theorem blaRaw_eq {count age : Nat} (hcount : count < 2 ^ 32) (hage : age ≤ 2 ^ 53) :
    blaRaw count age = lnFixed (2 * (count + 1)) - lnFixed (age + 1) / 2 ∧
      blaRawChecked count age = some (blaRaw count age) := by
  have hfreq : 2 * (count + 1) < 2 ^ 54 := by omega
  have hnext : age + 1 < 2 ^ 54 := by omega
  have hfreq0 := lnFixed_nonneg hfreq
  have hfreq1 := lnFixed_lt hfreq
  have hnext0 := lnFixed_nonneg hnext
  have hnext1 := lnFixed_lt hnext
  rw [blaRaw, blaRawChecked, word_eq (by omega), some_bind, word_eq (by omega), some_bind, (lnFixed_eq hfreq).2, some_bind,
    word_eq (by omega), some_bind, (lnFixed_eq hnext).2, some_bind, divSigned_eq hnext0 (by omega) (by decide), some_bind,
    wrapU_of_lt (by omega), Int.tdiv_eq_ediv_of_nonneg hnext0]
  exact ⟨rfl, signed_eq (by omega) (by omega)⟩

/-- More accesses do not lower the activation and more age does not raise it, in words that
hold every intermediate value; what is not stale after the one or before the other was not
stale without it. -/
theorem blaRaw_ordered (c₁ c₂ : BitVec 32) (a₁ a₂ : BitVec 64) (hc : c₁ ≤ c₂) (ha : a₁ ≤ a₂)
    (hage : a₂.toNat ≤ 2 ^ 53) :
    (∀ c ∈ [c₁, c₂], ∀ a ∈ [a₁, a₂], blaRawChecked c.toNat a.toNat = some (blaRaw c.toNat a.toNat)) ∧
      blaRaw c₁.toNat a₂.toNat ≤ blaRaw c₁.toNat a₁.toNat ∧ blaRaw c₁.toNat a₁.toNat ≤ blaRaw c₂.toNat a₁.toNat ∧
      (blaRaw c₂.toNat a₁.toNat < THETA_DEMOTE → blaRaw c₁.toNat a₂.toNat < THETA_DEMOTE) := by
  have hc' : c₁.toNat ≤ c₂.toNat := hc
  have ha' : a₁.toNat ≤ a₂.toNat := ha
  have hc₂ := c₂.isLt
  have hold : blaRaw c₁.toNat a₂.toNat ≤ blaRaw c₁.toNat a₁.toNat := by
    have hln := lnFixed_mono (x := a₁.toNat + 1) (y := a₂.toNat + 1) (by omega) (by omega)
    rw [(blaRaw_eq (by omega) hage).1, (blaRaw_eq (by omega) (by omega)).1]
    omega
  have htouched : blaRaw c₁.toNat a₁.toNat ≤ blaRaw c₂.toNat a₁.toNat := by
    have hln := lnFixed_mono (x := 2 * (c₁.toNat + 1)) (y := 2 * (c₂.toNat + 1)) (by omega) (by omega)
    rw [(blaRaw_eq (by omega) (by omega)).1, (blaRaw_eq hc₂ (by omega)).1]
    omega
  refine ⟨?_, hold, htouched, fun hstale => lt_of_le_of_lt (hold.trans htouched) hstale⟩
  intro c _ a hmem
  have hle : a.toNat ≤ 2 ^ 53 := by
    rcases List.mem_cons.mp hmem with rfl | hmem
    · omega
    · rwa [List.mem_singleton.mp hmem]
  exact (blaRaw_eq c.isLt hle).2

theorem blaRaw_ordered_week : (∀ c ∈ [(1 : BitVec 32), 9], ∀ a ∈ [(10 : BitVec 64), 5000],
      blaRawChecked c.toNat a.toNat = some (blaRaw c.toNat a.toNat)) ∧
    blaRaw 1 5000 ≤ blaRaw 1 10 ∧ blaRaw 1 10 ≤ blaRaw 9 10 ∧
      (blaRaw 9 10 < THETA_DEMOTE → blaRaw 1 5000 < THETA_DEMOTE) :=
  blaRaw_ordered 1 9 10 5000 (by decide) (by decide) (by decide)

end Yuva.Mem
