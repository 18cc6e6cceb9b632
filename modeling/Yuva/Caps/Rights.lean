/-
# `Yuva.Caps.Rights` — the rights algebra

`tb-caps-core/src/rights.rs`.  A rights set is a 32-bit mask; the only
rights-changing primitive is `intersect`, a bitwise AND, so narrowing can drop
a right and never add one.  `Rights.le` is the order the attenuation invariant
ascends in: `r ≤ r'` is `is_subset_of`, read bit by bit (`le_iff_carries`).
-/
import Mathlib.Order.Basic
import Mathlib.Data.BitVec

namespace Yuva.Caps

/-- A 32-bit rights set. -/
structure Rights where
  bits : BitVec 32
deriving DecidableEq, Repr

namespace Rights

/-- The right at bit position `i`, as the source's `1 << i`. -/
def ofBit (i : Nat) : Rights := ⟨1#32 <<< i⟩

def NONE : Rights := ⟨0⟩
def READ : Rights := ofBit 0
def WRITE : Rights := ofBit 1
def TRANSFER : Rights := ofBit 2
def DUP : Rights := ofBit 3
def REVOKE : Rights := ofBit 4
def INVOKE_MODEL : Rights := ofBit 5
def SPAWN_AGENT : Rights := ofBit 6
def WRITE_PROCEDURAL : Rights := ofBit 7
def RECALL : Rights := ofBit 8
def CONSOLIDATE : Rights := ofBit 9
def EMIT_EXTERNAL : Rights := ofBit 10
def DELEGATE_BUDGET : Rights := ofBit 11
def APPROVE_HIGH_IMPACT : Rights := ofBit 12

/-- A rights set from raw bits: how a narrowing mask is read. -/
def fromBits (b : BitVec 32) : Rights := ⟨b⟩

def union (r other : Rights) : Rights := ⟨r.bits ||| other.bits⟩

/-- Monotonic attenuation. -/
def intersect (r mask : Rights) : Rights := ⟨r.bits &&& mask.bits⟩

/-- `r` carries every right in `need`: the dispatch gate. -/
def contains (r need : Rights) : Bool := (r.bits &&& need.bits) == need.bits

def isSubsetOf (r sup : Rights) : Bool := (r.bits &&& sup.bits) == r.bits

/-- `r` carries the single right at bit `i`. -/
def Carries (r : Rights) (i : Nat) : Prop := r.bits.getLsbD i = true

instance (r : Rights) (i : Nat) : Decidable (r.Carries i) :=
  inferInstanceAs (Decidable (_ = _))

instance : LE Rights := ⟨fun r sup => r.isSubsetOf sup = true⟩

instance (r sup : Rights) : Decidable (r ≤ sup) := inferInstanceAs (Decidable (_ = _))

/-- The subset order, bit by bit. -/
theorem le_iff_carries {r sup : Rights} : r ≤ sup ↔ ∀ i, r.Carries i → sup.Carries i := by
  show ((r.bits &&& sup.bits) == r.bits) = true ↔ _
  rw [beq_iff_eq]
  constructor
  · intro h i hi
    have hbit : (r.bits &&& sup.bits).getLsbD i = r.bits.getLsbD i := by rw [h]
    rw [BitVec.getLsbD_and] at hbit
    rw [Carries] at hi ⊢
    rw [hi] at hbit
    simpa using hbit
  · intro h
    apply BitVec.eq_of_getLsbD_eq
    intro i _
    rw [BitVec.getLsbD_and]
    cases hr : r.bits.getLsbD i with
    | false => rfl
    | true =>
        have hsup : sup.bits.getLsbD i = true := h i hr
        rw [hsup]
        rfl

theorem le_refl (r : Rights) : r ≤ r := le_iff_carries.mpr fun _ h => h

theorem le_trans {r s t : Rights} (hrs : r ≤ s) (hst : s ≤ t) : r ≤ t :=
  le_iff_carries.mpr fun i h => le_iff_carries.mp hst i (le_iff_carries.mp hrs i h)

/-- What a smaller set carries, a larger one does. -/
theorem contains_mono {r s need : Rights} (h : r ≤ s) (hr : r.contains need = true) :
    s.contains need = true := by
  have hle : need ≤ r := by
    show ((need.bits &&& r.bits) == need.bits) = true
    rw [BitVec.and_comm]
    exact hr
  have hle' : ((need.bits &&& s.bits) == need.bits) = true := le_trans hle h
  rw [BitVec.and_comm] at hle'
  exact hle'

/-- Narrowing never amplifies, whatever the mask. -/
theorem intersect_le (r mask : Rights) : r.intersect mask ≤ r := by
  apply le_iff_carries.mpr
  intro i h
  rw [Carries, intersect, BitVec.getLsbD_and, Bool.and_eq_true] at h
  exact h.1

end Rights

end Yuva.Caps
