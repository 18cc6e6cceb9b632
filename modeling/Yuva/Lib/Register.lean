/-
# `Yuva.Lib.Register` — versioned registers under compare-and-swap

A file of registers, one per key, that share one clock.  A compare-and-swap names
the version it expects; it stamps the register with the next tick of the clock, or
refuses and changes nothing.

    clock and versions only grow              (`Later`, `cas_later`)
    a successful swap leaves its expectation
      behind for good                         (`cas_spends`)

both as long as no version is ahead of the clock (`Stamped`).

Nothing here mentions a particular store.
-/
import Mathlib.Logic.Function.Basic

namespace Yuva.Register

variable {κ ν : Type*} [DecidableEq κ]

/-- A version of zero is a register never written. -/
structure Registers (κ ν : Type*) where
  clock : Nat
  version : κ → Nat
  value : κ → Option ν

namespace Registers

def new : Registers κ ν := ⟨0, fun _ => 0, fun _ => none⟩

/-- The register at `k` takes `x` at the next tick. -/
def set (R : Registers κ ν) (k : κ) (x : ν) : Registers κ ν where
  clock := R.clock + 1
  version := Function.update R.version k (R.clock + 1)
  value := Function.update R.value k (some x)

def cas (R : Registers κ ν) (k : κ) (x : ν) (expected : Nat) : Option Nat × Registers κ ν :=
  if R.version k = expected then (some (R.clock + 1), R.set k x) else (none, R)

def Stamped (R : Registers κ ν) : Prop := ∀ k, R.version k ≤ R.clock

/-- `R'` comes after `R`. -/
structure Later (R R' : Registers κ ν) : Prop where
  clock : R.clock ≤ R'.clock
  version : ∀ k, R.version k ≤ R'.version k

omit [DecidableEq κ] in
theorem Later.refl (R : Registers κ ν) : Later R R := ⟨Nat.le_refl _, fun _ => Nat.le_refl _⟩

omit [DecidableEq κ] in
theorem Later.trans {R R' R'' : Registers κ ν} (h : Later R R') (h' : Later R' R'') : Later R R'' :=
  ⟨Nat.le_trans h.clock h'.clock, fun k => Nat.le_trans (h.version k) (h'.version k)⟩

theorem set_version (R : Registers κ ν) (k : κ) (x : ν) (j : κ) :
    (R.set k x).version j = if j = k then R.clock + 1 else R.version j :=
  Function.update_apply _ _ _ _

theorem set_value (R : Registers κ ν) (k : κ) (x : ν) (j : κ) :
    (R.set k x).value j = if j = k then some x else R.value j :=
  Function.update_apply _ _ _ _

theorem set_later {R : Registers κ ν} (h : Stamped R) (k : κ) (x : ν) : Later R (R.set k x) := by
  refine ⟨Nat.le_succ _, fun j => ?_⟩
  rw [set_version]
  split
  · exact Nat.le_trans (h j) (Nat.le_succ _)
  · exact Nat.le_refl _

theorem cas_later {R : Registers κ ν} (h : Stamped R) (k : κ) (x : ν) (expected : Nat) :
    Later R (R.cas k x expected).2 := by
  rw [cas]
  split
  · exact set_later h k x
  · exact .refl R

/-- Whoever expects the same version after a success is refused, however much later. -/
theorem cas_spends {R R' : Registers κ ν} (h : Stamped R) {k : κ} {x y : ν} {expected : Nat}
    (hok : (R.cas k x expected).1 ≠ none) (hlater : Later (R.cas k x expected).2 R') :
    R'.cas k y expected = (none, R') := by
  rw [cas] at hok hlater
  split at hok
  · next hcur =>
      rw [if_pos hcur] at hlater
      have hv := hlater.version k
      rw [set_version, if_pos rfl] at hv
      have hk := h k
      rw [cas, if_neg (by omega)]
  · exact absurd rfl hok

end Registers

end Yuva.Register
