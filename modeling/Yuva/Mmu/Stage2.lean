/-
# `Yuva.Mmu.Stage2` — the guest's second-stage tables

`build_guest_stage2` of `tb-hal/src/arch/aarch64/stage2.rs`, over the descriptor algebra of
`tb-encode/src/stage2.rs`: a level-1 root with two level-2 tables, one 2 MiB device block
mapped to itself and sixteen 2 MiB blocks mapped to the carve-out.  `s2Translate` is the
architecture's walk for the granule and start level the code programs: 4 KiB, level 1, with
the input size, the output size and the root read from the two control registers.

**Proved here.**  The walk answers `guest_carve_pa` inside the guest's RAM window, the
address itself inside the interrupt controller's block, and a fault everywhere else
(`guest_stage2_confined`).
-/
import Yuva.Mmu.Forest

namespace Yuva.Mmu

/-! ## Descriptors and control registers -/

def S2_DESC_BLOCK : Nat := 0b01
def S2_DESC_PAGE : Nat := 0b11
def S2_DESC_TABLE : Nat := 0b11
def S2AP_RW : Nat := 0b11 <<< 6
def S2_MEMATTR_NORMAL_WB : Nat := 0xF <<< 2
def S2_MEMATTR_DEVICE : Nat := 0x0 <<< 2
def S2_SH_INNER : Nat := 0b11 <<< 8
def S2_AF : Nat := 1 <<< 10

def s2Leaf2mib (pa memattr : Nat) : Nat :=
  makeEntry pa (S2_DESC_BLOCK ||| S2_AF ||| S2_SH_INNER ||| S2AP_RW ||| memattr)

def s2Table (child : Nat) : Nat := makeEntry child S2_DESC_TABLE

def VTCR_RES1 : Nat := 1 <<< 31

def vtcr (t0sz sl0 tg0 ps sh0 orgn0 irgn0 : Nat) : Nat :=
  VTCR_RES1 ||| (t0sz &&& 0x3F) ||| ((sl0 &&& 0x3) <<< 6) ||| ((irgn0 &&& 0x3) <<< 8) |||
    ((orgn0 &&& 0x3) <<< 10) ||| ((sh0 &&& 0x3) <<< 12) ||| ((tg0 &&& 0x3) <<< 14) ||| ((ps &&& 0x7) <<< 16)

def VTTBR_VMID_SHIFT : Nat := 48

def vttbr (rootPa vmid : Nat) : Nat := makeEntry rootPa ((vmid &&& 0xFFFF) <<< VTTBR_VMID_SHIFT)

def vttbrBaddr (vttbrVal : Nat) : Nat := vttbrVal &&& ENTRY_ADDR_MASK

def S2_T0SZ : Nat := 25
def S2_SL0 : Nat := 1
def S2_TG0 : Nat := 0b00
def S2_PS : Nat := 0b010
def S2_SH0 : Nat := 0b11
def S2_ORGN0 : Nat := 0b01
def S2_IRGN0 : Nat := 0b01

def computeVtcr : Nat := vtcr S2_T0SZ S2_SL0 S2_TG0 S2_PS S2_SH0 S2_ORGN0 S2_IRGN0

def KGUEST_VMID : Nat := 2

def computeVttbrVmid (root vmid : Nat) : Nat := vttbr root vmid

/-! ## The guest's map -/

def GUEST_IPA_BASE : Nat := 0x40000000
def GUEST_CARVE_PA : Nat := 0x46000000
def GUEST_CARVE_SIZE : Nat := 32 * 1024 * 1024

def guestCarvePa (ipa : Nat) : Option Nat :=
  if ipa ≥ GUEST_IPA_BASE ∧ ipa < GUEST_IPA_BASE + GUEST_CARVE_SIZE then
    some (GUEST_CARVE_PA + (ipa - GUEST_IPA_BASE))
  else none

def BLOCK_2M : Nat := 0x200000
def GIB0_DEVICE_BASE : Nat := 0
def GIB1_RAM_BASE : Nat := 0x40000000

/-- The interrupt controller's 2 MiB block. -/
def KGUEST_GIC_BLOCK : Nat := 0x08000000

namespace Phys

def frameAllocZeroed (p : Phys) : Option (Nat × Phys) :=
  match p.frameAlloc with
  | none => none
  | some (f, p) => some (f, p.zeroTable f)

def s2Set (p : Phys) (tablePa idx desc : Nat) : Phys := p.write (tablePa + 8 * idx) desc

/-- The loop over the carve's blocks, by their offsets. -/
def mapCarve (l2Gib1 : Nat) : List Nat → Phys → Bool × Phys
  | [], p => (true, p)
  | off :: offs, p =>
      let ipa := GUEST_IPA_BASE + off
      match guestCarvePa ipa with
      | some pa =>
          mapCarve l2Gib1 offs (p.s2Set l2Gib1 (levelIndex ipa SHIFT_2M) (s2Leaf2mib pa S2_MEMATTR_NORMAL_WB))
      | none => (false, p)

/-- The offsets below `GUEST_CARVE_SIZE` in steps of a block. -/
def carveOffsets : List Nat := (List.range (GUEST_CARVE_SIZE / BLOCK_2M)).map (BLOCK_2M * ·)

def buildGuestStage2 (p : Phys) : Option Nat × Phys :=
  match p.frameAllocZeroed with
  | none => (none, p)
  | some (root, p) =>
      match p.frameAllocZeroed with
      | none => (none, p)
      | some (l2Gib0, p) =>
          match p.frameAllocZeroed with
          | none => (none, p)
          | some (l2Gib1, p) =>
              let p := p.s2Set l2Gib0 (levelIndex KGUEST_GIC_BLOCK SHIFT_2M)
                (s2Leaf2mib KGUEST_GIC_BLOCK S2_MEMATTR_DEVICE)
              match mapCarve l2Gib1 carveOffsets p with
              | (false, p) => (none, p)
              | (true, p) =>
                  let p := p.s2Set root (levelIndex GIB0_DEVICE_BASE SHIFT_1G) (s2Table l2Gib0)
                  let p := p.s2Set root (levelIndex GIB1_RAM_BASE SHIFT_1G) (s2Table l2Gib1)
                  (some root, p)

end Phys

/-! ## The walk -/

/-- Input addresses are `64 - T0SZ` bits wide. -/
def ipaBits (vtcrVal : Nat) : Nat := 64 - vtcrVal % 64

/-- Output addresses, by the `PS` field: 32, 36, 40, 42, 44 or 48 bits. -/
def paBits (vtcrVal : Nat) : Nat :=
  match vtcrVal / 2 ^ 16 % 8 with
  | 0 => 32
  | 1 => 36
  | 2 => 40
  | 3 => 42
  | 4 => 44
  | _ => 48

inductive Access where
  | read | write
  deriving DecidableEq, Repr

/-- The bit of `S2AP` that allows the access. -/
def Access.s2apBit : Access → Nat
  | .read => 6
  | .write => 7

/-- A leaf of `bits` address bits: the access flag must be set, `S2AP` must allow the access, and the
output must fit. -/
def s2Leaf (vtcrVal desc bits : Nat) (access : Access) (ipa : Nat) : Option Nat :=
  let out := desc % 2 ^ 48 / 2 ^ bits * 2 ^ bits + ipa % 2 ^ bits
  if desc / 2 ^ 10 % 2 = 0 then none
  else if desc / 2 ^ access.s2apBit % 2 = 0 then none
  else if out < 2 ^ paBits vtcrVal then some out
  else none

/-- The next table of a table descriptor. -/
def s2Next (vtcrVal desc : Nat) : Option Nat :=
  let next := desc % 2 ^ 48 / 2 ^ 12 * 2 ^ 12
  if next < 2 ^ paBits vtcrVal then some next else none

/-- The walk from level 1: bits 38 to 30, 29 to 21, 20 to 12. -/
def s2Walk (vtcrVal : Nat) (mem : Mem) (root : Nat) (access : Access) (ipa : Nat) : Option Nat :=
  let d1 := mem (root + 8 * (ipa / 2 ^ 30 % 512))
  if d1 % 4 = 1 then s2Leaf vtcrVal d1 30 access ipa
  else if d1 % 4 = 3 then
    match s2Next vtcrVal d1 with
    | none => none
    | some l2 =>
        let d2 := mem (l2 + 8 * (ipa / 2 ^ 21 % 512))
        if d2 % 4 = 1 then s2Leaf vtcrVal d2 21 access ipa
        else if d2 % 4 = 3 then
          match s2Next vtcrVal d2 with
          | none => none
          | some l3 =>
              let d3 := mem (l3 + 8 * (ipa / 2 ^ 12 % 512))
              if d3 % 4 = 3 then s2Leaf vtcrVal d3 12 access ipa else none
        else none
  else none

/-- The translation under the two registers; a fault is `none`. -/
def s2Translate (vtcrVal vttbrVal : Nat) (mem : Mem) (access : Access) (ipa : Nat) : Option Nat :=
  if ipa < 2 ^ ipaBits vtcrVal then s2Walk vtcrVal mem (vttbrBaddr vttbrVal) access ipa else none

/-! ## Descriptors, as sums -/

theorem makeEntry_eq_add {pa attrs : Nat} (hdvd : PAGE_SIZE ∣ pa) (hlt : pa < 2 ^ 48) (hattrs : attrs < PAGE_SIZE) :
    makeEntry pa attrs = pa + attrs := by
  have haddr : pa &&& ENTRY_ADDR_MASK = pa := entryAddr_of_frame hdvd hlt
  obtain ⟨n, rfl⟩ := hdvd
  rw [makeEntry, haddr]
  exact (Nat.two_pow_add_eq_or_of_lt (i := 12) hattrs n).symm

theorem s2Table_eq {child : Nat} (hdvd : PAGE_SIZE ∣ child) (hlt : child < 2 ^ 40) : s2Table child = child + 3 :=
  makeEntry_eq_add hdvd (Nat.lt_of_lt_of_le hlt (by decide)) (by decide)

/-- A table descriptor leads to its table. -/
theorem s2Next_s2Table {child : Nat} (hdvd : PAGE_SIZE ∣ child) (hlt : child < 2 ^ 40) :
    s2Table child % 4 = 3 ∧ s2Next computeVtcr (s2Table child) = some child := by
  have hbits : paBits computeVtcr = 40 := by decide
  obtain ⟨n, rfl⟩ := hdvd
  rw [s2Table_eq (Nat.dvd_mul_right _ _) hlt, s2Next, hbits, PAGE_SIZE]
  rw [PAGE_SIZE] at hlt
  have hnext : (4096 * n + 3) % 2 ^ 48 / 2 ^ 12 * 2 ^ 12 = 4096 * n := by omega
  refine ⟨by omega, ?_⟩
  rw [hnext]
  exact if_pos hlt

/-- A block leaf with either of the two attributes translates, for every access. -/
theorem s2Leaf_s2Leaf2mib {pa memattr : Nat} (hdvd : BLOCK_2M ∣ pa) (hlt : pa < 2 ^ 40)
    (hattr : memattr = S2_MEMATTR_NORMAL_WB ∨ memattr = S2_MEMATTR_DEVICE) (access : Access) (ipa : Nat) :
    s2Leaf2mib pa memattr % 4 = 1 ∧
      s2Leaf computeVtcr (s2Leaf2mib pa memattr) 21 access ipa = some (pa + ipa % 2 ^ 21) := by
  have hbits : paBits computeVtcr = 40 := by decide
  obtain ⟨n, rfl⟩ := hdvd
  obtain ⟨attrs, hleaf, hattrs⟩ : ∃ attrs, s2Leaf2mib (BLOCK_2M * n) memattr = BLOCK_2M * n + attrs ∧
      (attrs = 0x7FD ∨ attrs = 0x7C1) := by
    have hpage : PAGE_SIZE ∣ BLOCK_2M * n := Dvd.dvd.mul_right (by decide) n
    have hlt' : BLOCK_2M * n < 2 ^ 48 := Nat.lt_of_lt_of_le hlt (by decide)
    rcases hattr with rfl | rfl
    · exact ⟨_, makeEntry_eq_add hpage hlt' (by decide), .inl (by decide)⟩
    · exact ⟨_, makeEntry_eq_add hpage hlt' (by decide), .inr (by decide)⟩
  rw [hleaf, s2Leaf, hbits, BLOCK_2M]
  rw [BLOCK_2M] at hlt
  have hout : (2097152 * n + attrs) % 2 ^ 48 / 2 ^ 21 * 2 ^ 21 + ipa % 2 ^ 21 = 2097152 * n + ipa % 2 ^ 21 := by
    rcases hattrs with rfl | rfl <;> omega
  have hallowed : ¬ (2097152 * n + attrs) / 2 ^ access.s2apBit % 2 = 0 := by
    cases access <;> rcases hattrs with rfl | rfl <;> simp only [Access.s2apBit] <;> omega
  refine ⟨by rcases hattrs with rfl | rfl <;> omega, ?_⟩
  rw [if_neg (by rcases hattrs with rfl | rfl <;> omega), if_neg hallowed, hout, if_pos (by omega)]

/-! ## The tables -/

/-- One descriptor written into a table. -/
theorem tab_s2Set {p : Phys} {t i desc : Nat} (hi : i < 512) (n : Nat) (j : Fin 512) :
    tab (p.s2Set (PAGE_SIZE * t) i desc).mem n j = if n = t ∧ (j : Nat) = i then desc else tab p.mem n j := by
  have hcell := congrFun (congrFun (tab_update p.mem t ⟨i, hi⟩ desc) n) j
  refine hcell.trans ?_
  exact if_congr (and_congr_right fun _ => Fin.ext_iff) rfl rfl

theorem levelIndex_carve {i : Nat} (h : i < 16) : levelIndex (GUEST_IPA_BASE + BLOCK_2M * i) SHIFT_2M = i := by
  rw [levelIndex_eq, GUEST_IPA_BASE, BLOCK_2M, SHIFT_2M]
  omega

theorem mapCarve_spec {c : Nat} (offs : List Nat) (hoffs : ∀ off ∈ offs, ∃ i < 16, off = BLOCK_2M * i) (p : Phys) :
    (Phys.mapCarve (PAGE_SIZE * c) offs p).1 = true ∧
      ∀ n j, tab (Phys.mapCarve (PAGE_SIZE * c) offs p).2.mem n j =
        if n = c ∧ BLOCK_2M * (j : Nat) ∈ offs then s2Leaf2mib (GUEST_CARVE_PA + BLOCK_2M * j) S2_MEMATTR_NORMAL_WB
        else tab p.mem n j := by
  induction offs generalizing p with
  | nil => exact ⟨rfl, fun n j => (if_neg fun hat => List.not_mem_nil hat.2).symm⟩
  | cons off offs ih =>
      obtain ⟨i, hi, rfl⟩ := hoffs off List.mem_cons_self
      have hcarve : guestCarvePa (GUEST_IPA_BASE + BLOCK_2M * i) = some (GUEST_CARVE_PA + BLOCK_2M * i) := by
        rw [guestCarvePa, if_pos, Nat.add_sub_cancel_left]
        rw [GUEST_CARVE_SIZE, BLOCK_2M]
        omega
      have hrest := ih (fun off' hoff' => hoffs off' (List.mem_cons_of_mem _ hoff'))
        (p.s2Set (PAGE_SIZE * c) i (s2Leaf2mib (GUEST_CARVE_PA + BLOCK_2M * i) S2_MEMATTR_NORMAL_WB))
      rw [Phys.mapCarve, hcarve, levelIndex_carve hi]
      refine ⟨hrest.1, fun n j => ?_⟩
      rw [hrest.2 n j, tab_s2Set (Nat.lt_trans hi (by decide))]
      by_cases hn : n = c
      · by_cases hin : BLOCK_2M * (j : Nat) ∈ offs
        · rw [if_pos ⟨hn, hin⟩, if_pos ⟨hn, List.mem_cons_of_mem _ hin⟩]
        · rw [if_neg fun hat => hin hat.2]
          by_cases hj : (j : Nat) = i
          · rw [if_pos ⟨hn, hj⟩, if_pos ⟨hn, hj ▸ List.mem_cons_self⟩, hj]
          · rw [if_neg fun hat => hj hat.2, if_neg]
            rintro ⟨-, hmem⟩
            rcases List.mem_cons.mp hmem with heq | hmem
            · exact hj (Nat.eq_of_mul_eq_mul_left (by decide) heq)
            · exact hin hmem
      · rw [if_neg fun hat => hn hat.1, if_neg fun hat => hn hat.1, if_neg fun hat => hn hat.1]

theorem mem_carveOffsets (j : Nat) : BLOCK_2M * j ∈ Phys.carveOffsets ↔ j < 16 := by
  rw [Phys.carveOffsets, List.mem_map]
  constructor
  · rintro ⟨i, hi, heq⟩
    rw [← Nat.eq_of_mul_eq_mul_left (by decide) heq]
    exact List.mem_range.mp hi
  · intro hj
    exact ⟨j, List.mem_range.mpr hj, rfl⟩

/-- The three tables of the guest: nothing in them but what the map needs. -/
structure GuestTables (mem : Mem) (root a c : Nat) : Prop where
  l1 : ∀ j, tab mem root j = if (j : Nat) = 0 then s2Table (PAGE_SIZE * a) else
    if (j : Nat) = 1 then s2Table (PAGE_SIZE * c) else 0
  gib0 : ∀ j, tab mem a j = if (j : Nat) = 64 then s2Leaf2mib KGUEST_GIC_BLOCK S2_MEMATTR_DEVICE else 0
  gib1 : ∀ j, tab mem c j =
    if (j : Nat) < 16 then s2Leaf2mib (GUEST_CARVE_PA + BLOCK_2M * j) S2_MEMATTR_NORMAL_WB else 0

theorem frameAllocZeroed_spec {p : Phys} {n : Nat} {rest : List Nat} (hfree : p.free = PAGE_SIZE * n :: rest) :
    ∃ p', p.frameAllocZeroed = some (PAGE_SIZE * n, p') ∧ p'.free = rest ∧
      ∀ m j, tab p'.mem m j = if m = n then 0 else tab p.mem m j := by
  refine ⟨{ p with free := rest }.zeroTable (PAGE_SIZE * n), ?_, rfl, fun m j => tab_zeroTable _ n m j⟩
  rw [Phys.frameAllocZeroed, Phys.frameAlloc, hfree]

theorem build_tables {p : Phys} {root a c : Nat} {rest : List Nat}
    (hfree : p.free = PAGE_SIZE * root :: PAGE_SIZE * a :: PAGE_SIZE * c :: rest) (hra : root ≠ a) (hrc : root ≠ c)
    (hac : a ≠ c) : ∃ p', p.buildGuestStage2 = (some (PAGE_SIZE * root), p') ∧ GuestTables p'.mem root a c := by
  obtain ⟨p₁, h₁, hfree₁, ht₁⟩ := frameAllocZeroed_spec hfree
  obtain ⟨p₂, h₂, hfree₂, ht₂⟩ := frameAllocZeroed_spec hfree₁
  obtain ⟨p₃, h₃, -, ht₃⟩ := frameAllocZeroed_spec hfree₂
  have hgic : levelIndex KGUEST_GIC_BLOCK SHIFT_2M = 64 := by decide
  have hl1₀ : levelIndex GIB0_DEVICE_BASE SHIFT_1G = 0 := by decide
  have hl1₁ : levelIndex GIB1_RAM_BASE SHIFT_1G = 1 := by decide
  have hoffs : ∀ off ∈ Phys.carveOffsets, ∃ i < 16, off = BLOCK_2M * i := by
    intro off hoff
    obtain ⟨i, hi, rfl⟩ := List.mem_map.mp hoff
    exact ⟨i, List.mem_range.mp hi, rfl⟩
  obtain ⟨hok, hcarve⟩ := mapCarve_spec (c := c) Phys.carveOffsets hoffs
    (p₃.s2Set (PAGE_SIZE * a) 64 (s2Leaf2mib KGUEST_GIC_BLOCK S2_MEMATTR_DEVICE))
  rw [Phys.buildGuestStage2, h₁]
  dsimp only
  rw [h₂]
  dsimp only
  rw [h₃]
  dsimp only
  rw [hgic, hl1₀, hl1₁]
  cases hloop : Phys.mapCarve (PAGE_SIZE * c) Phys.carveOffsets
      (p₃.s2Set (PAGE_SIZE * a) 64 (s2Leaf2mib KGUEST_GIC_BLOCK S2_MEMATTR_DEVICE)) with
  | mk ok p₄ =>
      rw [hloop] at hok hcarve
      dsimp only at hok hcarve
      rw [hok]
      -- what every cell holds, read back through the writes
      have hcell : ∀ n j, tab ((p₄.s2Set (PAGE_SIZE * root) 0 (s2Table (PAGE_SIZE * a))).s2Set (PAGE_SIZE * root) 1
          (s2Table (PAGE_SIZE * c))).mem n j =
            if n = root ∧ (j : Nat) = 1 then s2Table (PAGE_SIZE * c) else
            if n = root ∧ (j : Nat) = 0 then s2Table (PAGE_SIZE * a) else
            if n = c ∧ (j : Nat) < 16 then s2Leaf2mib (GUEST_CARVE_PA + BLOCK_2M * j) S2_MEMATTR_NORMAL_WB else
            if n = a ∧ (j : Nat) = 64 then s2Leaf2mib KGUEST_GIC_BLOCK S2_MEMATTR_DEVICE else
            if n = c then 0 else if n = a then 0 else if n = root then 0 else tab p.mem n j := by
        intro n j
        rw [tab_s2Set (by decide), tab_s2Set (by decide), hcarve, tab_s2Set (by decide), ht₃, ht₂, ht₁]
        simp only [mem_carveOffsets]
      refine ⟨_, rfl, ⟨fun j => ?_, fun j => ?_, fun j => ?_⟩⟩
      · rw [hcell]
        simp only [hra, hrc, true_and, false_and, if_true, if_false]
        by_cases h0 : (j : Nat) = 0
        · rw [if_pos h0, if_pos h0, if_neg (by omega)]
        · rw [if_neg h0, if_neg h0]
      · rw [hcell]
        simp only [hra.symm, hac, true_and, false_and, if_true, if_false]
      · rw [hcell]
        simp only [hrc.symm, hac.symm, true_and, false_and, if_true, if_false]

/-! ## The walk over them -/

section
variable {mem : Mem} {root t ipa : Nat} {access : Access}

theorem s2Walk_invalid (h₁ : mem (root + 8 * (ipa / 2 ^ 30 % 512)) = 0) :
    s2Walk computeVtcr mem root access ipa = none := by
  rw [s2Walk, h₁]
  rfl

theorem s2Walk_table (ht : PAGE_SIZE * t < 2 ^ 40)
    (h₁ : mem (root + 8 * (ipa / 2 ^ 30 % 512)) = s2Table (PAGE_SIZE * t)) :
    (mem (PAGE_SIZE * t + 8 * (ipa / 2 ^ 21 % 512)) = 0 → s2Walk computeVtcr mem root access ipa = none) ∧
      ∀ pa memattr, BLOCK_2M ∣ pa → pa < 2 ^ 40 →
        (memattr = S2_MEMATTR_NORMAL_WB ∨ memattr = S2_MEMATTR_DEVICE) →
        mem (PAGE_SIZE * t + 8 * (ipa / 2 ^ 21 % 512)) = s2Leaf2mib pa memattr →
          s2Walk computeVtcr mem root access ipa = some (pa + ipa % 2 ^ 21) := by
  obtain ⟨htype, hnext⟩ := s2Next_s2Table (Nat.dvd_mul_right _ t) ht
  have hdown : s2Walk computeVtcr mem root access ipa =
      if mem (PAGE_SIZE * t + 8 * (ipa / 2 ^ 21 % 512)) % 4 = 1 then
        s2Leaf computeVtcr (mem (PAGE_SIZE * t + 8 * (ipa / 2 ^ 21 % 512))) 21 access ipa
      else if mem (PAGE_SIZE * t + 8 * (ipa / 2 ^ 21 % 512)) % 4 = 3 then
        match s2Next computeVtcr (mem (PAGE_SIZE * t + 8 * (ipa / 2 ^ 21 % 512))) with
        | none => none
        | some l3 =>
            if mem (l3 + 8 * (ipa / 2 ^ 12 % 512)) % 4 = 3 then
              s2Leaf computeVtcr (mem (l3 + 8 * (ipa / 2 ^ 12 % 512))) 12 access ipa
            else none
      else none := by
    rw [s2Walk, h₁, if_neg (by omega), if_pos htype, hnext]
  constructor
  · intro h₂
    rw [hdown, h₂]
    rfl
  · intro pa memattr hdvd hlt hattr h₂
    obtain ⟨htype₂, hleaf⟩ := s2Leaf_s2Leaf2mib hdvd hlt hattr access ipa
    rw [hdown, h₂, if_pos htype₂, hleaf]

end

/-- What the guest may reach: the carve-out through its window, and the interrupt controller. -/
def guestMap (ipa : Nat) : Option Nat :=
  if KGUEST_GIC_BLOCK ≤ ipa ∧ ipa < KGUEST_GIC_BLOCK + BLOCK_2M then some ipa else guestCarvePa ipa

theorem s2Walk_guestTables {mem : Mem} {root a c : Nat} (h : GuestTables mem root a c) (ha : PAGE_SIZE * a < 2 ^ 40)
    (hc : PAGE_SIZE * c < 2 ^ 40) (access : Access) {ipa : Nat} (hipa : ipa < 2 ^ 39) :
    s2Walk computeVtcr mem (PAGE_SIZE * root) access ipa = guestMap ipa := by
  have hl1 := h.l1 ⟨ipa / 2 ^ 30 % 512, Nat.mod_lt _ (by decide)⟩
  have hgib0 := h.gib0 ⟨ipa / 2 ^ 21 % 512, Nat.mod_lt _ (by decide)⟩
  have hgib1 := h.gib1 ⟨ipa / 2 ^ 21 % 512, Nat.mod_lt _ (by decide)⟩
  rw [tab] at hl1 hgib0 hgib1
  dsimp only at hl1 hgib0 hgib1
  rw [guestMap, guestCarvePa, GUEST_IPA_BASE, GUEST_CARVE_SIZE, GUEST_CARVE_PA, KGUEST_GIC_BLOCK, BLOCK_2M]
  by_cases h0 : ipa / 2 ^ 30 % 512 = 0
  · rw [if_pos h0] at hl1
    obtain ⟨hfault, hblock⟩ := @s2Walk_table mem _ a ipa access ha hl1
    by_cases hgic : ipa / 2 ^ 21 % 512 = 64
    · rw [if_pos hgic] at hgib0
      rw [hblock _ _ (by decide) (by decide) (.inr rfl) hgib0, if_pos (by omega), KGUEST_GIC_BLOCK, Option.some.injEq]
      omega
    · rw [if_neg hgic] at hgib0
      rw [hfault hgib0, if_neg (by omega), if_neg (by omega)]
  · by_cases h1 : ipa / 2 ^ 30 % 512 = 1
    · rw [if_neg h0, if_pos h1] at hl1
      obtain ⟨hfault, hblock⟩ := @s2Walk_table mem _ c ipa access hc hl1
      by_cases hin : ipa / 2 ^ 21 % 512 < 16
      · rw [if_pos hin] at hgib1
        have hdvd : BLOCK_2M ∣ GUEST_CARVE_PA + BLOCK_2M * (ipa / 2 ^ 21 % 512) :=
          Nat.dvd_add (by decide) (Nat.dvd_mul_right _ _)
        have hlt : GUEST_CARVE_PA + BLOCK_2M * (ipa / 2 ^ 21 % 512) < 2 ^ 40 := by
          rw [GUEST_CARVE_PA, BLOCK_2M]
          omega
        rw [hblock _ _ hdvd hlt (.inl rfl) hgib1, if_neg (by omega), if_pos (by omega), GUEST_CARVE_PA, BLOCK_2M,
          Option.some.injEq]
        omega
      · rw [if_neg hin] at hgib1
        rw [hfault hgib1, if_neg (by omega), if_neg (by omega)]
    · rw [if_neg h0, if_neg h1] at hl1
      rw [s2Walk_invalid hl1, if_neg (by omega), if_neg (by omega)]

/-- A build that succeeds took three frames. -/
theorem build_free {p : Phys} (hframe : ∀ f ∈ p.free, PAGE_SIZE ∣ f) {root : Nat} {p' : Phys}
    (hbuild : p.buildGuestStage2 = (some root, p')) :
    ∃ r a c rest, p.free = PAGE_SIZE * r :: PAGE_SIZE * a :: PAGE_SIZE * c :: rest := by
  have hnil : ∀ q : Phys, q.free = [] → q.frameAllocZeroed = none := by
    intro q hq
    rw [Phys.frameAllocZeroed, Phys.frameAlloc, hq]
  have hnone : ∀ (q : Phys) (r : Option Nat × Phys), r = (none, q) → r ≠ (some root, p') := by
    rintro q r rfl hno
    cases hno
  rw [Phys.buildGuestStage2] at hbuild
  cases h₁ : p.free with
  | nil =>
      rw [hnil p h₁] at hbuild
      exact absurd hbuild (hnone p _ rfl)
  | cons f₁ free₁ =>
      obtain ⟨r, rfl⟩ := hframe f₁ (h₁ ▸ List.mem_cons_self)
      obtain ⟨p₁, heq₁, hfree₁, -⟩ := frameAllocZeroed_spec h₁
      rw [heq₁] at hbuild
      dsimp only at hbuild
      cases h₂ : free₁ with
      | nil =>
          rw [hnil p₁ (hfree₁.trans h₂)] at hbuild
          exact absurd hbuild (hnone p₁ _ rfl)
      | cons f₂ free₂ =>
          obtain ⟨a, rfl⟩ := hframe f₂ (by rw [h₁, h₂]; exact List.mem_cons_of_mem _ List.mem_cons_self)
          obtain ⟨p₂, heq₂, hfree₂, -⟩ := frameAllocZeroed_spec (hfree₁.trans h₂)
          rw [heq₂] at hbuild
          dsimp only at hbuild
          cases h₃ : free₂ with
          | nil =>
              rw [hnil p₂ (hfree₂.trans h₃)] at hbuild
              exact absurd hbuild (hnone p₂ _ rfl)
          | cons f₃ free₃ =>
              obtain ⟨c, rfl⟩ := hframe f₃ (by
                rw [h₁, h₂, h₃]
                exact List.mem_cons_of_mem _ (List.mem_cons_of_mem _ List.mem_cons_self))
              exact ⟨r, a, c, free₃, rfl⟩

/-- Over distinct free frames of the machine's 40-bit memory: the tables are built when there are three
frames, and under the registers the guest runs with, a read or a write at any address of the window goes
to its place in the carve-out, at any address of the interrupt controller's block to itself, and faults
everywhere else. -/
theorem guest_stage2_confined (p : Phys) (hnodup : p.free.Nodup) (hframe : ∀ f ∈ p.free, PAGE_SIZE ∣ f ∧ f < 2 ^ 40) :
    (3 ≤ p.free.length → ∃ root p', p.buildGuestStage2 = (some root, p')) ∧
      ∀ root p', p.buildGuestStage2 = (some root, p') → ∀ access ipa,
        (GUEST_IPA_BASE ≤ ipa ∧ ipa < GUEST_IPA_BASE + GUEST_CARVE_SIZE →
          s2Translate computeVtcr (computeVttbrVmid root KGUEST_VMID) p'.mem access ipa = guestCarvePa ipa ∧
            ∃ pa, guestCarvePa ipa = some pa ∧ GUEST_CARVE_PA ≤ pa ∧ pa < GUEST_CARVE_PA + GUEST_CARVE_SIZE) ∧
        (KGUEST_GIC_BLOCK ≤ ipa ∧ ipa < KGUEST_GIC_BLOCK + BLOCK_2M →
          s2Translate computeVtcr (computeVttbrVmid root KGUEST_VMID) p'.mem access ipa = some ipa) ∧
        (¬ (GUEST_IPA_BASE ≤ ipa ∧ ipa < GUEST_IPA_BASE + GUEST_CARVE_SIZE) →
          ¬ (KGUEST_GIC_BLOCK ≤ ipa ∧ ipa < KGUEST_GIC_BLOCK + BLOCK_2M) →
            s2Translate computeVtcr (computeVttbrVmid root KGUEST_VMID) p'.mem access ipa = none) := by
  have hdistinct : ∀ {r a c rest}, p.free = PAGE_SIZE * r :: PAGE_SIZE * a :: PAGE_SIZE * c :: rest →
      r ≠ a ∧ r ≠ c ∧ a ≠ c := by
    intro r a c rest hfree
    rw [hfree] at hnodup
    simp only [List.nodup_cons, List.mem_cons, not_or] at hnodup
    exact ⟨fun heq => hnodup.1.1 (heq ▸ rfl), fun heq => hnodup.1.2.1 (heq ▸ rfl),
      fun heq => hnodup.2.1.1 (heq ▸ rfl)⟩
  constructor
  · intro hlen
    match hfree : p.free, hlen with
    | f₁ :: f₂ :: f₃ :: rest, _ =>
        obtain ⟨r, rfl⟩ := (hframe f₁ (by rw [hfree]; simp)).1
        obtain ⟨a, rfl⟩ := (hframe f₂ (by rw [hfree]; simp)).1
        obtain ⟨c, rfl⟩ := (hframe f₃ (by rw [hfree]; simp)).1
        obtain ⟨hra, hrc, hac⟩ := hdistinct hfree
        obtain ⟨p', hbuild, -⟩ := build_tables hfree hra hrc hac
        exact ⟨_, p', hbuild⟩
  · intro root p' hbuild access ipa
    obtain ⟨r, a, c, rest, hfree⟩ := build_free (fun f hf => (hframe f hf).1) hbuild
    obtain ⟨hra, hrc, hac⟩ := hdistinct hfree
    obtain ⟨p'', hbuild', htables⟩ := build_tables hfree hra hrc hac
    rw [hbuild] at hbuild'
    cases hbuild'
    have hr := (hframe (PAGE_SIZE * r) (by rw [hfree]; simp)).2
    have ha := (hframe (PAGE_SIZE * a) (by rw [hfree]; simp)).2
    have hc := (hframe (PAGE_SIZE * c) (by rw [hfree]; simp)).2
    have hroot : vttbrBaddr (computeVttbrVmid (PAGE_SIZE * r) KGUEST_VMID) = PAGE_SIZE * r :=
      (entryAddr_makeEntry (by decide)).trans
        (entryAddr_of_frame (Nat.dvd_mul_right _ _) (Nat.lt_of_lt_of_le hr (by decide)))
    have hbits : ipaBits computeVtcr = 39 := by decide
    have htranslate : s2Translate computeVtcr (computeVttbrVmid (PAGE_SIZE * r) KGUEST_VMID) p'.mem access ipa =
        guestMap ipa := by
      rw [s2Translate, hbits, hroot]
      split
      · next hlt => exact s2Walk_guestTables htables ha hc access hlt
      · next hge =>
          rw [guestMap, guestCarvePa, GUEST_IPA_BASE, GUEST_CARVE_SIZE, KGUEST_GIC_BLOCK, BLOCK_2M, if_neg (by omega),
            if_neg (by omega)]
    rw [htranslate, guestMap]
    refine ⟨fun hin => ?_, fun hgic => if_pos hgic, fun hout hno => ?_⟩
    · have hcarve : guestCarvePa ipa = some (GUEST_CARVE_PA + (ipa - GUEST_IPA_BASE)) := if_pos hin
      refine ⟨if_neg ?_, _, hcarve, Nat.le_add_right _ _, ?_⟩
      · rw [GUEST_IPA_BASE] at hin
        rw [KGUEST_GIC_BLOCK, BLOCK_2M]
        omega
      · rw [GUEST_IPA_BASE] at hin ⊢
        omega
    · rw [if_neg hno]
      exact if_neg hout

/-- Over three frames: an address of the window, one of the interrupt controller, and one of the carve-out
that is no address of the guest. -/
theorem guest_stage2_confined_three :
    ∃ root p', (⟨fun _ => 0, [0x44000000, 0x44001000, 0x44002000]⟩ : Phys).buildGuestStage2 = (some root, p') ∧
      (s2Translate computeVtcr (computeVttbrVmid root KGUEST_VMID) p'.mem .read 0x40201234 = guestCarvePa 0x40201234 ∧
        ∃ pa, guestCarvePa 0x40201234 = some pa ∧ GUEST_CARVE_PA ≤ pa ∧ pa < GUEST_CARVE_PA + GUEST_CARVE_SIZE) ∧
      s2Translate computeVtcr (computeVttbrVmid root KGUEST_VMID) p'.mem .write 0x08010004 = some 0x08010004 ∧
      s2Translate computeVtcr (computeVttbrVmid root KGUEST_VMID) p'.mem .write 0x46000000 = none := by
  obtain ⟨hbuild, hwalk⟩ :=
    guest_stage2_confined ⟨fun _ => 0, [0x44000000, 0x44001000, 0x44002000]⟩ (by decide) (by decide)
  obtain ⟨root, p', heq⟩ := hbuild (by decide)
  exact ⟨root, p', heq, (hwalk root p' heq .read 0x40201234).1 (by decide),
    (hwalk root p' heq .write 0x08010004).2.1 (by decide),
    (hwalk root p' heq .write 0x46000000).2.2 (by decide) (by decide)⟩

end Yuva.Mmu
