/-
# `Yuva.Lib.Region` — half-open regions of an address space

A region is `[addr, addr + size)`.  A list of regions is weighed byte by byte:
`weight rs x` is the number of regions that hold `x`.  Cutting a region in two, or
gluing two that abut, moves no weight, so an allocator that only cuts and glues is
audited by one equation between weights; that no byte is held twice, or lost, is then
read off the two sides (`partition_of_weight`).

An address-ordered free list is `Ascending`: every block ends strictly before the
next one starts, so neighbours neither overlap nor touch.

Nothing here mentions a particular allocator.
-/
import Mathlib.Data.List.Basic
import Mathlib.Data.List.Pairwise

namespace Yuva

structure Region where
  addr : Nat
  size : Nat
  deriving DecidableEq, Repr

namespace Region

/-- One past the last byte. -/
def stop (r : Region) : Nat := r.addr + r.size

instance : Membership Nat Region := ⟨fun r x => r.addr ≤ x ∧ x < r.stop⟩

theorem mem_iff {r : Region} {x : Nat} : x ∈ r ↔ r.addr ≤ x ∧ x < r.stop := Iff.rfl

instance (x : Nat) (r : Region) : Decidable (x ∈ r) := decidable_of_iff _ mem_iff.symm

def Disjoint (r s : Region) : Prop := ∀ x, x ∈ r → x ∉ s

/-- `r` ends before `s` starts, with a gap between them. -/
def Before (r s : Region) : Prop := r.stop < s.addr

def Ascending (rs : List Region) : Prop := rs.Pairwise Before

/-! ## Weights -/

/-- One inside the region, zero outside. -/
def unit (r : Region) (x : Nat) : Nat := if r.addr ≤ x ∧ x < r.stop then 1 else 0

/-- How many of the regions hold the byte. -/
def weight : List Region → Nat → Nat
  | [], _ => 0
  | r :: rs, x => r.unit x + weight rs x

@[simp] theorem weight_nil (x : Nat) : weight [] x = 0 := rfl

@[simp] theorem weight_cons (r : Region) (rs : List Region) (x : Nat) :
    weight (r :: rs) x = r.unit x + weight rs x := rfl

@[simp] theorem weight_append (rs ss : List Region) (x : Nat) :
    weight (rs ++ ss) x = weight rs x + weight ss x := by
  induction rs with
  | nil => exact (Nat.zero_add _).symm
  | cons r rs ih => rw [List.cons_append, weight_cons, weight_cons, ih, Nat.add_assoc]

theorem unit_pos_iff {r : Region} {x : Nat} : 0 < r.unit x ↔ x ∈ r := by
  rw [unit, mem_iff]
  split
  · next h => exact ⟨fun _ => h, fun _ => Nat.one_pos⟩
  · next h => exact ⟨fun hlt => absurd hlt (Nat.lt_irrefl 0), fun hmem => absurd hmem h⟩

theorem unit_le_one (r : Region) (x : Nat) : r.unit x ≤ 1 := by
  rw [unit]
  split
  · exact Nat.le_refl 1
  · exact Nat.zero_le 1

theorem unit_eq_zero {r : Region} {x : Nat} (h : x ∉ r) : r.unit x = 0 :=
  Nat.eq_zero_of_not_pos fun hpos => h (unit_pos_iff.mp hpos)

/-- A part of a region weighs no more than the region. -/
theorem unit_le {r s : Region} (haddr : s.addr ≤ r.addr) (hstop : r.stop ≤ s.stop) (x : Nat) :
    r.unit x ≤ s.unit x := by
  by_cases hmem : x ∈ r
  · have hpos := unit_pos_iff.mpr (show x ∈ s from
      ⟨Nat.le_trans haddr hmem.1, Nat.lt_of_lt_of_le hmem.2 hstop⟩)
    exact Nat.le_trans (unit_le_one r x) hpos
  · rw [unit_eq_zero hmem]
    exact Nat.zero_le _

theorem Disjoint.unit_le_one {r s : Region} (h : Disjoint r s) (x : Nat) : r.unit x + s.unit x ≤ 1 := by
  by_cases hmem : x ∈ r
  · rw [unit_eq_zero (h x hmem)]
    exact Region.unit_le_one r x
  · rw [unit_eq_zero hmem, Nat.zero_add]
    exact Region.unit_le_one s x

theorem unit_empty (a x : Nat) : unit ⟨a, 0⟩ x = 0 := by
  rw [unit, if_neg]
  rintro ⟨hle, hlt⟩
  exact absurd hlt (Nat.not_lt.mpr hle)

/-- A region weighs what its two parts weigh, wherever it is cut. -/
theorem unit_cut (a m n x : Nat) : unit ⟨a, m + n⟩ x = unit ⟨a, m⟩ x + unit ⟨a + m, n⟩ x := by
  change (if a ≤ x ∧ x < a + (m + n) then 1 else 0) =
    (if a ≤ x ∧ x < a + m then 1 else 0) + (if a + m ≤ x ∧ x < a + m + n then 1 else 0)
  by_cases hlo : x < a + m
  · rw [if_neg (show ¬ (a + m ≤ x ∧ x < a + m + n) by omega), Nat.add_zero]
    exact if_congr (by omega) rfl rfl
  · rw [if_neg (show ¬ (a ≤ x ∧ x < a + m) by omega), Nat.zero_add]
    exact if_congr (by omega) rfl rfl

theorem weight_perm {rs ss : List Region} (h : rs.Perm ss) (x : Nat) : weight rs x = weight ss x := by
  induction h with
  | nil => rfl
  | cons r _ ih => rw [weight_cons, weight_cons, ih]
  | swap r s rs => exact Nat.add_left_comm _ _ _
  | trans _ _ ih₁ ih₂ => exact ih₁.trans ih₂

theorem weight_pos_iff {rs : List Region} {x : Nat} : 0 < weight rs x ↔ ∃ r ∈ rs, x ∈ r := by
  induction rs with
  | nil => simp
  | cons r rs ih =>
      rw [weight_cons, List.exists_mem_cons_iff, ← ih, ← unit_pos_iff]
      omega

/-! ## Partitions -/

/-- The regions hold the bytes of `donated`, and each of them once. -/
structure Partition (rs donated : List Region) : Prop where
  disjoint : rs.Pairwise Disjoint
  cover : ∀ x, (∃ r ∈ rs, x ∈ r) ↔ ∃ d ∈ donated, x ∈ d

theorem pairwise_disjoint_of_weight {rs : List Region} (h : ∀ x, weight rs x ≤ 1) :
    rs.Pairwise Disjoint := by
  induction rs with
  | nil => exact .nil
  | cons r rs ih =>
      simp only [weight_cons] at h
      refine List.pairwise_cons.mpr ⟨?_, ih fun x => by have := h x; omega⟩
      intro s hs x hxr hxs
      have hone : 0 < r.unit x := unit_pos_iff.mpr hxr
      have htwo : 0 < weight rs x := weight_pos_iff.mpr ⟨s, hs, hxs⟩
      have := h x
      omega

/-- Lists of equal weight, no byte of which weighs more than one, partition the same memory. -/
theorem partition_of_weight {rs donated : List Region}
    (heq : ∀ x, weight rs x = weight donated x) (hone : ∀ x, weight donated x ≤ 1) :
    Partition rs donated where
  disjoint := pairwise_disjoint_of_weight fun x => heq x ▸ hone x
  cover x := by rw [← weight_pos_iff, ← weight_pos_iff, heq x]

/-! ## Splicing a region into an ascending list -/

/-- Put `b` in front, glued to the first block when they abut. -/
def join (b : Region) : List Region → List Region
  | [] => [b]
  | c :: rest => if b.stop = c.addr then ⟨b.addr, b.size + c.size⟩ :: rest else b :: c :: rest

theorem weight_join (b : Region) (rs : List Region) (x : Nat) :
    weight (join b rs) x = b.unit x + weight rs x := by
  cases rs with
  | nil => rfl
  | cons c rest =>
      rw [join]
      split
      · next habut =>
          have hc : c = ⟨b.addr + b.size, c.size⟩ := by rw [← stop, habut]
          rw [weight_cons, unit_cut, weight_cons c, ← hc, Nat.add_assoc]
      · rfl

theorem join_forall {P : Region → Prop}
    (hglue : ∀ b c : Region, P b → P c → b.stop = c.addr → P ⟨b.addr, b.size + c.size⟩)
    {b : Region} {rs : List Region} (hb : P b) (hrs : ∀ r ∈ rs, P r) : ∀ r ∈ join b rs, P r := by
  cases rs with
  | nil => intro r hr; rwa [List.mem_singleton.mp hr]
  | cons c rest =>
      rw [join]
      split
      · next habut =>
          intro r hr
          rcases List.mem_cons.mp hr with rfl | hr
          · exact hglue b c hb (hrs c List.mem_cons_self) habut
          · exact hrs r (List.mem_cons_of_mem c hr)
      · intro r hr
        rcases List.mem_cons.mp hr with rfl | hr
        · exact hb
        · exact hrs r hr

theorem join_addr_le {b : Region} {rs : List Region} (h : ∀ r ∈ rs, b.stop ≤ r.addr) :
    ∀ r ∈ join b rs, b.addr ≤ r.addr := by
  intro r hr
  cases rs with
  | nil => exact Nat.le_of_eq (congrArg addr (List.mem_singleton.mp hr)).symm
  | cons c rest =>
      have hle : ∀ r ∈ c :: rest, b.addr ≤ r.addr := fun r hr => Nat.le_trans (Nat.le_add_right _ _) (h r hr)
      rw [join] at hr
      split at hr
      · rcases List.mem_cons.mp hr with rfl | hr
        · exact Nat.le_refl _
        · exact hle r (List.mem_cons_of_mem c hr)
      · rcases List.mem_cons.mp hr with rfl | hr
        · exact Nat.le_refl _
        · exact hle r hr

theorem ascending_join {b : Region} {rs : List Region} (hrs : Ascending rs)
    (h : ∀ r ∈ rs, b.stop ≤ r.addr) (hpos : ∀ r ∈ rs, 0 < r.size) : Ascending (join b rs) := by
  cases rs with
  | nil => exact List.pairwise_singleton _ _
  | cons c rest =>
      obtain ⟨hc, hrest⟩ := List.pairwise_cons.mp hrs
      have hbc := h c List.mem_cons_self
      have hcpos := hpos c List.mem_cons_self
      rw [join]
      split
      · next habut =>
          refine List.pairwise_cons.mpr ⟨fun r hr => ?_, hrest⟩
          have := hc r hr
          simp only [Before, stop] at this habut ⊢
          omega
      · next happart =>
          refine List.pairwise_cons.mpr ⟨fun r hr => ?_, hrs⟩
          rcases List.mem_cons.mp hr with rfl | hr
          · exact Nat.lt_of_le_of_ne hbc happart
          · have := hc r hr
            simp only [Before, stop] at this hbc ⊢
            omega

/-- Two regions that share no byte, the first starting no later: it ends before the second starts. -/
theorem stop_le_of_disjoint {r s : Region} (h : Disjoint r s) (hle : r.addr ≤ s.addr)
    (hpos : 0 < s.size) : r.stop ≤ s.addr := by
  by_contra hlt
  exact h s.addr ⟨hle, Nat.lt_of_not_le hlt⟩ ⟨Nat.le_refl _, Nat.lt_add_of_pos_right hpos⟩

/-- A region that shares no byte with an ascending list and starts no later ends before all of it. -/
theorem stop_le_ascending {node c : Region} {rs : List Region} (hasc : Ascending (c :: rs))
    (hpos : ∀ r ∈ c :: rs, 0 < r.size) (hdisj : ∀ r ∈ c :: rs, Disjoint r node)
    (hle : node.addr ≤ c.addr) : ∀ r ∈ c :: rs, node.stop ≤ r.addr := by
  intro r hr
  have hfirst : node.addr ≤ r.addr := by
    rcases List.mem_cons.mp hr with rfl | hr
    · exact hle
    · have := (List.pairwise_cons.mp hasc).1 r hr
      simp only [Before, stop] at this
      omega
  exact stop_le_of_disjoint (fun x hx hxr => hdisj r hr x hxr hx) hfirst (hpos r hr)

theorem disjoint_of_weight {node : Region} {rs : List Region}
    (h : ∀ x, node.unit x + weight rs x ≤ 1) : ∀ r ∈ rs, Disjoint r node := by
  intro r hr x hxr hxn
  have hone := unit_pos_iff.mpr hxn
  have htwo := weight_pos_iff.mpr ⟨r, hr, hxr⟩
  have := h x
  omega

end Region

end Yuva
