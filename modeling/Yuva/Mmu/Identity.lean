/-
# `Yuva.Mmu.Identity` — a second stage over the kernel's own memory

`build_identity_stage2` of `tb-hal/src/arch/aarch64/stage2.rs`, with the frame and the first-stage
block that go with it.  The guest of the demand test runs on the kernel's own tables, code and
stack, so its second stage is the identity on the two gigabytes the kernel uses.  Above them is
one hole, with its tables built and its leaf left out.

    L1[0]   the devices, 512 blocks of 2 MiB, each at its own address
    L1[1]   the memory, the same way
    L1[5]   the hole: a level-2 table, a level-3 table, no leaf
    other   nothing

**Proved here.**  What the walk answers under this root, before the leaf is there and after
(`HoleTables.translate`).
-/
import Yuva.Mmu.Stage2

namespace Yuva.Mmu

/-! ## Layout -/

def HOLE_IPA : Nat := 0x140000000
def VMID : Nat := 1

/-- A first-stage block of 1 GiB of ordinary memory. -/
def STAGE1_BLOCK_NORMAL : Nat := 0b01 ||| (1 <<< 10) ||| (0b11 <<< 8) ||| (1 <<< 2)

def DEMAND_SEED : Nat := 0x53475F3253455256

def computeVttbr (root : Nat) : Nat := vttbr root VMID

namespace Phys

/-- The loop over the blocks of one gigabyte. -/
def mapGib (p : Phys) (l2 base memattr : Nat) : Phys :=
  (List.range 512).foldl (fun p i => p.s2Set l2 i (s2Leaf2mib (base + i * BLOCK_2M) memattr)) p

def buildIdentityStage2 (p : Phys) : Option Nat × Phys :=
  match p.frameAllocZeroed with
  | none => (none, p)
  | some (root, p) =>
      match p.frameAllocZeroed with
      | none => (none, p)
      | some (l2Gib0, p) =>
          match p.frameAllocZeroed with
          | none => (none, p)
          | some (l2Gib1, p) =>
              match p.frameAllocZeroed with
              | none => (none, p)
              | some (l2Hole, p) =>
                  match p.frameAllocZeroed with
                  | none => (none, p)
                  | some (l3Hole, p) =>
                      let p := p.mapGib l2Gib0 GIB0_DEVICE_BASE S2_MEMATTR_DEVICE
                      let p := p.mapGib l2Gib1 GIB1_RAM_BASE S2_MEMATTR_NORMAL_WB
                      let p := p.s2Set root (levelIndex GIB0_DEVICE_BASE SHIFT_1G) (s2Table l2Gib0)
                      let p := p.s2Set root (levelIndex GIB1_RAM_BASE SHIFT_1G) (s2Table l2Gib1)
                      let p := p.s2Set root (levelIndex HOLE_IPA SHIFT_1G) (s2Table l2Hole)
                      (some root, p.s2Set l2Hole (levelIndex HOLE_IPA SHIFT_2M) (s2Table l3Hole))

/-- The frame the hole is to get, its first word seeded; the rest of it is as its last holder left it. -/
def prepDemandFrame (p : Phys) : Option Nat × Phys :=
  match p.frameAlloc with
  | none => (none, p)
  | some (f, p) => (some f, p.write f DEMAND_SEED)

/-- The hole's address goes through the first stage as it is. -/
def installStage1HoleBlock (p : Phys) (currentRoot : Nat) : Phys :=
  p.write (currentRoot + 8 * levelIndex HOLE_IPA SHIFT_1G) (makeEntry HOLE_IPA STAGE1_BLOCK_NORMAL)

end Phys

/-! ## The tables -/

theorem s2Set_free (p : Phys) (table i desc : Nat) : (p.s2Set table i desc).free = p.free := rfl

theorem mapGib_free (p : Phys) (l2 base memattr : Nat) : (p.mapGib l2 base memattr).free = p.free := by
  rw [Phys.mapGib]
  generalize List.range 512 = is
  induction is generalizing p with
  | nil => rfl
  | cons i is ih => exact ih _

theorem tab_mapGib (p : Phys) (t base memattr n : Nat) (j : Fin 512) :
    tab (p.mapGib (PAGE_SIZE * t) base memattr).mem n j =
      if n = t then s2Leaf2mib (base + j * BLOCK_2M) memattr else tab p.mem n j := by
  have hmem : (p.mapGib (PAGE_SIZE * t) base memattr).mem = (List.range 512).foldl
      (fun m i => Function.update m (PAGE_SIZE * t + 8 * i) (s2Leaf2mib (base + i * BLOCK_2M) memattr)) p.mem :=
    (List.foldl_hom Phys.mem fun _ _ => rfl).symm
  rw [hmem, tab_writes (fun i => s2Leaf2mib (base + i * BLOCK_2M) memattr) t _ fun i hi => List.mem_range.mp hi]
  exact if_congr (and_iff_left (List.mem_range.mpr j.isLt)) rfl rfl

/-- The five tables, with `leaf` where the hole's page goes. -/
structure HoleTables (mem : Mem) (root a c h l leaf : Nat) : Prop where
  l1 : ∀ j, tab mem root j = if (j : Nat) = 0 then s2Table (PAGE_SIZE * a) else
    if (j : Nat) = 1 then s2Table (PAGE_SIZE * c) else if (j : Nat) = 5 then s2Table (PAGE_SIZE * h) else 0
  gib0 : ∀ j, tab mem a j = s2Leaf2mib (GIB0_DEVICE_BASE + j * BLOCK_2M) S2_MEMATTR_DEVICE
  gib1 : ∀ j, tab mem c j = s2Leaf2mib (GIB1_RAM_BASE + j * BLOCK_2M) S2_MEMATTR_NORMAL_WB
  l2 : ∀ j, tab mem h j = if (j : Nat) = 0 then s2Table (PAGE_SIZE * l) else 0
  l3 : ∀ j, tab mem l j = if (j : Nat) = 0 then leaf else 0

/-- They are all that counts. -/
theorem HoleTables.congr {mem mem' : Mem} {root a c h l leaf : Nat} (ht : HoleTables mem root a c h l leaf)
    (heq : ∀ n ∈ [root, a, c, h, l], ∀ j, tab mem' n j = tab mem n j) : HoleTables mem' root a c h l leaf where
  l1 := fun j => (heq root (by simp) j).trans (ht.l1 j)
  gib0 := fun j => (heq a (by simp) j).trans (ht.gib0 j)
  gib1 := fun j => (heq c (by simp) j).trans (ht.gib1 j)
  l2 := fun j => (heq h (by simp) j).trans (ht.l2 j)
  l3 := fun j => (heq l (by simp) j).trans (ht.l3 j)

/-- Over five distinct frames the tables are built. -/
theorem buildIdentityStage2_spec {p : Phys} {root a c h l : Nat} {rest : List Nat}
    (hfree : p.free = PAGE_SIZE * root :: PAGE_SIZE * a :: PAGE_SIZE * c :: PAGE_SIZE * h :: PAGE_SIZE * l :: rest)
    (hne : [root, a, c, h, l].Nodup) :
    ∃ p', p.buildIdentityStage2 = (some (PAGE_SIZE * root), p') ∧ p'.free = rest ∧
      HoleTables p'.mem root a c h l 0 := by
  obtain ⟨p₁, h₁, hfree₁, ht₁⟩ := frameAllocZeroed_spec hfree
  obtain ⟨p₂, h₂, hfree₂, ht₂⟩ := frameAllocZeroed_spec hfree₁
  obtain ⟨p₃, h₃, hfree₃, ht₃⟩ := frameAllocZeroed_spec hfree₂
  obtain ⟨p₄, h₄, hfree₄, ht₄⟩ := frameAllocZeroed_spec hfree₃
  obtain ⟨p₅, h₅, hfree₅, ht₅⟩ := frameAllocZeroed_spec hfree₄
  have hl1₀ : levelIndex GIB0_DEVICE_BASE SHIFT_1G = 0 := by decide
  have hl1₁ : levelIndex GIB1_RAM_BASE SHIFT_1G = 1 := by decide
  have hl1₅ : levelIndex HOLE_IPA SHIFT_1G = 5 := by decide
  have hl2 : levelIndex HOLE_IPA SHIFT_2M = 0 := by decide
  simp only [List.nodup_cons, List.mem_cons, List.not_mem_nil, or_false, not_or] at hne
  obtain ⟨⟨hra, hrc, hrh, hrl⟩, ⟨hac, hah, hal⟩, ⟨hch, hcl⟩, hhl, -⟩ := hne
  rw [Phys.buildIdentityStage2, h₁]
  dsimp only
  rw [h₂]
  dsimp only
  rw [h₃]
  dsimp only
  rw [h₄]
  dsimp only
  rw [h₅]
  dsimp only
  rw [hl1₀, hl1₁, hl1₅, hl2]
  refine ⟨_, rfl, ?_, ?_⟩
  · rw [s2Set_free, s2Set_free, s2Set_free, s2Set_free, mapGib_free, mapGib_free, hfree₅]
  -- what every cell holds, read back through the writes
  have hcell : ∀ n j, tab (((((((p₅.mapGib (PAGE_SIZE * a) GIB0_DEVICE_BASE S2_MEMATTR_DEVICE).mapGib (PAGE_SIZE * c)
      GIB1_RAM_BASE S2_MEMATTR_NORMAL_WB).s2Set (PAGE_SIZE * root) 0 (s2Table (PAGE_SIZE * a))).s2Set
        (PAGE_SIZE * root) 1 (s2Table (PAGE_SIZE * c))).s2Set (PAGE_SIZE * root) 5 (s2Table (PAGE_SIZE * h))).s2Set
          (PAGE_SIZE * h) 0 (s2Table (PAGE_SIZE * l)))).mem n j =
        if n = h ∧ (j : Nat) = 0 then s2Table (PAGE_SIZE * l) else
        if n = root ∧ (j : Nat) = 5 then s2Table (PAGE_SIZE * h) else
        if n = root ∧ (j : Nat) = 1 then s2Table (PAGE_SIZE * c) else
        if n = root ∧ (j : Nat) = 0 then s2Table (PAGE_SIZE * a) else
        if n = c then s2Leaf2mib (GIB1_RAM_BASE + j * BLOCK_2M) S2_MEMATTR_NORMAL_WB else
        if n = a then s2Leaf2mib (GIB0_DEVICE_BASE + j * BLOCK_2M) S2_MEMATTR_DEVICE else
        if n = l then 0 else if n = h then 0 else if n = c then 0 else if n = a then 0 else
        if n = root then 0 else tab p.mem n j := by
    intro n j
    rw [tab_s2Set (by decide), tab_s2Set (by decide), tab_s2Set (by decide), tab_s2Set (by decide), tab_mapGib,
      tab_mapGib, ht₅, ht₄, ht₃, ht₂, ht₁]
  refine ⟨fun j => ?_, fun j => ?_, fun j => ?_, fun j => ?_, fun j => ?_⟩
  · rw [hcell]
    simp only [hra, hrc, hrh, hrl, true_and, false_and, if_true, if_false]
    by_cases h0 : (j : Nat) = 0
    · rw [if_neg (by omega), if_neg (by omega), if_pos h0, if_pos h0]
    · rw [if_neg h0, if_neg h0]
      by_cases h1 : (j : Nat) = 1
      · rw [if_neg (by omega), if_pos h1, if_pos h1]
      · rw [if_neg h1, if_neg h1]
  · rw [hcell]
    simp only [Ne.symm hra, hah, hac, false_and, if_true, if_false]
  · rw [hcell]
    simp only [Ne.symm hrc, hch, false_and, if_true, if_false]
  · rw [hcell]
    simp only [Ne.symm hrh, Ne.symm hch, Ne.symm hah, hhl, true_and, false_and, if_true, if_false]
  · rw [hcell]
    simp only [Ne.symm hrl, Ne.symm hcl, Ne.symm hal, Ne.symm hhl, false_and, if_true, if_false, ite_self]

/-! ## The walk -/

def s2PageLeaf (pa : Nat) : Nat :=
  makeEntry pa (S2_DESC_PAGE ||| S2_AF ||| S2_SH_INNER ||| S2AP_RW ||| S2_MEMATTR_NORMAL_WB)

/-- A page leaf of ordinary memory translates, for every access. -/
theorem s2Leaf_s2PageLeaf {pa : Nat} (hdvd : PAGE_SIZE ∣ pa) (hlt : pa < 2 ^ 40) (access : Access) (ipa : Nat) :
    s2PageLeaf pa % 4 = 3 ∧ s2Leaf computeVtcr (s2PageLeaf pa) 12 access ipa = some (pa + ipa % 2 ^ 12) := by
  have hbits : paBits computeVtcr = 40 := by decide
  have hattrs : S2_DESC_PAGE ||| S2_AF ||| S2_SH_INNER ||| S2AP_RW ||| S2_MEMATTR_NORMAL_WB = 0x7FF := by decide
  have hleaf : s2PageLeaf pa = pa + 0x7FF := by
    rw [s2PageLeaf, hattrs]
    exact makeEntry_eq_add hdvd (Nat.lt_of_lt_of_le hlt (by decide)) (by decide)
  obtain ⟨n, rfl⟩ := hdvd
  rw [hleaf, s2Leaf, hbits, PAGE_SIZE]
  rw [PAGE_SIZE] at hlt
  have hout : (4096 * n + 0x7FF) % 2 ^ 48 / 2 ^ 12 * 2 ^ 12 + ipa % 2 ^ 12 = 4096 * n + ipa % 2 ^ 12 := by omega
  have hallowed : ¬ (4096 * n + 0x7FF) / 2 ^ access.s2apBit % 2 = 0 := by
    cases access <;> simp only [Access.s2apBit] <;> omega
  refine ⟨by omega, ?_⟩
  rw [if_neg (by omega), if_neg hallowed, hout, if_pos (by omega)]

/-- Two tables down. -/
theorem s2Walk_tables {mem : Mem} {root t u ipa : Nat} {access : Access} (ht : PAGE_SIZE * t < 2 ^ 40)
    (hu : PAGE_SIZE * u < 2 ^ 40) (h₁ : mem (root + 8 * (ipa / 2 ^ 30 % 512)) = s2Table (PAGE_SIZE * t))
    (h₂ : mem (PAGE_SIZE * t + 8 * (ipa / 2 ^ 21 % 512)) = s2Table (PAGE_SIZE * u)) :
    s2Walk computeVtcr mem root access ipa =
      if mem (PAGE_SIZE * u + 8 * (ipa / 2 ^ 12 % 512)) % 4 = 3 then
        s2Leaf computeVtcr (mem (PAGE_SIZE * u + 8 * (ipa / 2 ^ 12 % 512))) 12 access ipa
      else none := by
  obtain ⟨htype, hnext⟩ := s2Next_s2Table (Nat.dvd_mul_right _ t) ht
  obtain ⟨htype', hnext'⟩ := s2Next_s2Table (Nat.dvd_mul_right _ u) hu
  rw [s2Walk, h₁, if_neg (by omega), if_pos htype, hnext]
  dsimp only
  rw [h₂, if_neg (by omega), if_pos htype', hnext']

/-- The map the tables stand for, with the page behind the hole once there is one. -/
def holeMap (page : Option Nat) (ipa : Nat) : Option Nat :=
  if ipa < 2 ^ 31 then some ipa
  else if HOLE_IPA ≤ ipa ∧ ipa < HOLE_IPA + PAGE_SIZE then page.map (· + (ipa - HOLE_IPA)) else none

/-- The entry for it. -/
def holeLeaf : Option Nat → Nat
  | none => 0
  | some d => s2PageLeaf d

namespace HoleTables

variable {mem : Mem} {root a c h l : Nat} {page : Option Nat}

theorem walk (ht : HoleTables mem root a c h l (holeLeaf page))
    (hlt : ∀ n ∈ [root, a, c, h, l], PAGE_SIZE * n < 2 ^ 40) (hpage : ∀ d ∈ page, PAGE_SIZE ∣ d ∧ d < 2 ^ 40)
    (access : Access) {ipa : Nat} (hipa : ipa < 2 ^ 39) :
    s2Walk computeVtcr mem (PAGE_SIZE * root) access ipa = holeMap page ipa := by
  have hl1 := ht.l1 ⟨ipa / 2 ^ 30 % 512, Nat.mod_lt _ (by decide)⟩
  have hgib0 := ht.gib0 ⟨ipa / 2 ^ 21 % 512, Nat.mod_lt _ (by decide)⟩
  have hgib1 := ht.gib1 ⟨ipa / 2 ^ 21 % 512, Nat.mod_lt _ (by decide)⟩
  have hl2 := ht.l2 ⟨ipa / 2 ^ 21 % 512, Nat.mod_lt _ (by decide)⟩
  have hl3 := ht.l3 ⟨ipa / 2 ^ 12 % 512, Nat.mod_lt _ (by decide)⟩
  rw [tab] at hl1 hgib0 hgib1 hl2 hl3
  dsimp only at hl1 hgib0 hgib1 hl2 hl3
  have ha := hlt a (by simp)
  have hc := hlt c (by simp)
  have hh := hlt h (by simp)
  have hl := hlt l (by simp)
  have hmap : holeMap page ipa = if ipa < 2 ^ 31 then some ipa else
      if 0x140000000 ≤ ipa ∧ ipa < 0x140000000 + 4096 then page.map (· + (ipa - 0x140000000)) else none := rfl
  rw [hmap]
  by_cases h0 : ipa / 2 ^ 30 % 512 = 0
  · rw [if_pos h0] at hl1
    rw [if_pos (by omega)]
    refine ((s2Walk_table ha hl1).2 _ _ ?_ ?_ (.inr rfl) hgib0).trans (congrArg some ?_)
    · rw [GIB0_DEVICE_BASE, Nat.zero_add]
      exact Nat.dvd_mul_left _ _
    · rw [GIB0_DEVICE_BASE, BLOCK_2M]
      omega
    · rw [GIB0_DEVICE_BASE, BLOCK_2M]
      omega
  rw [if_neg h0] at hl1
  by_cases h1 : ipa / 2 ^ 30 % 512 = 1
  · rw [if_pos h1] at hl1
    rw [if_pos (by omega)]
    refine ((s2Walk_table hc hl1).2 _ _ ?_ ?_ (.inl rfl) hgib1).trans (congrArg some ?_)
    · exact (Nat.dvd_add_iff_right (by decide)).mp (Nat.dvd_mul_left _ _)
    · rw [GIB1_RAM_BASE, BLOCK_2M]
      omega
    · rw [GIB1_RAM_BASE, BLOCK_2M]
      omega
  rw [if_neg h1] at hl1
  rw [if_neg (by omega)]
  by_cases h5 : ipa / 2 ^ 30 % 512 = 5
  · rw [if_pos h5] at hl1
    by_cases hi : ipa / 2 ^ 21 % 512 = 0
    · rw [if_pos hi] at hl2
      by_cases hj : ipa / 2 ^ 12 % 512 = 0
      · rw [if_pos hj] at hl3
        rw [if_pos (by omega), s2Walk_tables hh hl hl1 hl2, hl3]
        cases page with
        | none => rfl
        | some d =>
            obtain ⟨htype, hleaf⟩ := s2Leaf_s2PageLeaf (hpage d rfl).1 (hpage d rfl).2 access ipa
            have hoff : ipa % 2 ^ 12 = ipa - 0x140000000 := by omega
            rw [holeLeaf, if_pos htype, hleaf, hoff]
            rfl
      · rw [if_neg hj] at hl3
        rw [if_neg (by omega), s2Walk_tables hh hl hl1 hl2, hl3]
        rfl
    · rw [if_neg hi] at hl2
      rw [(s2Walk_table hh hl1).1 hl2, if_neg (by omega)]
  · rw [if_neg h5] at hl1
    rw [s2Walk_invalid hl1, if_neg (by omega)]

/-- Under the registers of the demand test. -/
theorem translate (ht : HoleTables mem root a c h l (holeLeaf page))
    (hlt : ∀ n ∈ [root, a, c, h, l], PAGE_SIZE * n < 2 ^ 40) (hpage : ∀ d ∈ page, PAGE_SIZE ∣ d ∧ d < 2 ^ 40)
    (access : Access) (ipa : Nat) :
    s2Translate computeVtcr (computeVttbr (PAGE_SIZE * root)) mem access ipa = holeMap page ipa := by
  have hroot : vttbrBaddr (computeVttbr (PAGE_SIZE * root)) = PAGE_SIZE * root :=
    (entryAddr_makeEntry (by decide)).trans
      (entryAddr_of_frame (Nat.dvd_mul_right _ _) (Nat.lt_of_lt_of_le (hlt root (by simp)) (by decide)))
  have hbits : ipaBits computeVtcr = 39 := by decide
  rw [s2Translate, hbits, hroot]
  split
  · next hin => exact ht.walk hlt hpage access hin
  · next hout =>
      rw [holeMap, HOLE_IPA, PAGE_SIZE, if_neg (by omega), if_neg (by omega)]

end HoleTables

end Yuva.Mmu
