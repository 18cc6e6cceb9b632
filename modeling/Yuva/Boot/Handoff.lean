/-
# `Yuva.Boot.Handoff` — the boot block of an aarch64 guest

`build_handoff_flagged` of `tb-boot/src/aarch64.rs`.  Three structures go to fixed places of
guest memory, below the kernel image:

    0x40001000  boot info        56 bytes
    0x40001040  memory regions   24 bytes each, up to the command line
    0x40001800  command line     and a NUL, up to 0x40080000

A slice has at most `isize::MAX` bytes, so the ends that the two bounds compare are sums of
machine words that do not wrap; they are numbers here.

**Proved here.**  A block that was built is read back as it was meant, and nothing outside
`[0x40001000, 0x40080000)` has changed (`read_back`); it is built wherever the two bounds hold
and the memory reaches behind the NUL (`build_eq_ok_iff`).
-/
import Yuva.Boot.Info
import Yuva.Lib.Overlay

namespace Yuva.Boot

open Yuva.Bytes Yuva.Overlay

def AARCH64_GUEST_RAM_BASE : Nat := 0x40000000
def AARCH64_IMAGE_LMA : Nat := 0x40080000
def AARCH64_BOOT_INFO_ADDR : Nat := 0x40001000
def AARCH64_MEM_REGIONS_ADDR : Nat := 0x40001040
def AARCH64_CMDLINE_ADDR : Nat := 0x40001800

def KVM_REG_ARM_CORE_BASE : BitVec 64 := 0x6030000000100000
def AARCH64_PSTATE_EL1H_DAIF : BitVec 64 := 0x3c5

def coreRegId (index : BitVec 64) : BitVec 64 := KVM_REG_ARM_CORE_BASE ||| index

def AARCH64_REG_X0 : BitVec 64 := coreRegId 0x0000
def AARCH64_REG_X1 : BitVec 64 := coreRegId 0x0002
def AARCH64_REG_X2 : BitVec 64 := coreRegId 0x0004
def AARCH64_REG_X3 : BitVec 64 := coreRegId 0x0006
def AARCH64_REG_PC : BitVec 64 := coreRegId 0x0040
def AARCH64_REG_PSTATE : BitVec 64 := coreRegId 0x0042

/-- A register and the value it is set to. -/
structure RegWrite where
  id : BitVec 64
  value : BitVec 64
  deriving DecidableEq, Repr

structure Aarch64Handoff where
  bootInfoAddr : BitVec 64
  info : TbBootInfo
  regs : List RegWrite
  deriving DecidableEq, Repr

/-- The value a register is handed over with. -/
def Aarch64Handoff.reg (h : Aarch64Handoff) (id : BitVec 64) : Option (BitVec 64) :=
  (h.regs.find? (·.id = id)).map RegWrite.value

inductive Aarch64HandoffError where
  | tooManyRegions
  | cmdlineTooLong
  | ramTooSmall
  deriving DecidableEq, Repr

/-! ## The writes -/

/-- The outcome, and the memory after it; `ram[0]` stands at `AARCH64_GUEST_RAM_BASE`. -/
def writeAt (ram : List UInt8) (gpa : Nat) (bytes : List UInt8) :
    Except Aarch64HandoffError Unit × List UInt8 :=
  let off := gpa - AARCH64_GUEST_RAM_BASE
  let stop := off + bytes.length
  if gpa < AARCH64_GUEST_RAM_BASE ∨ 2 ^ 64 ≤ stop ∨ stop > ram.length then (.error .ramTooSmall, ram)
  else (.ok (), ram.take off ++ bytes ++ ram.drop stop)

/-- Writes one after another, up to the first that is refused. -/
def writeAll (ram : List UInt8) : List (Piece UInt8) → Except Aarch64HandoffError Unit × List UInt8
  | [] => (.ok (), ram)
  | p :: ps =>
      match writeAt ram p.1 p.2 with
      | (.ok _, ram') => writeAll ram' ps
      | (.error e, ram') => (.error e, ram')

def regionWrites (memRegions : List TbMemRegion) : List (Piece UInt8) :=
  (memRegions.map TbMemRegion.toBytes).zipIdx.map fun x => (AARCH64_MEM_REGIONS_ADDR + x.2 * TbMemRegion.SIZE, x.1)

def cmdlineWrites (cmdline : List UInt8) : List (Piece UInt8) :=
  [(AARCH64_CMDLINE_ADDR, cmdline), (AARCH64_CMDLINE_ADDR + cmdline.length, [0])]

def bootInfo (flags : BitVec 32) (memRegions : List TbMemRegion) (cmdline : List UInt8) (entryPoint : BitVec 64) :
    TbBootInfo :=
  .new flags (.ofNat 64 AARCH64_MEM_REGIONS_ADDR) (.ofNat 64 memRegions.length) (.ofNat 64 AARCH64_CMDLINE_ADDR)
    (.ofNat 64 cmdline.length) entryPoint

def bootBlock (memRegions : List TbMemRegion) (cmdline : List UInt8) (entryPoint : BitVec 64) (flags : BitVec 32) :
    List (Piece UInt8) :=
  regionWrites memRegions ++ cmdlineWrites cmdline ++
    [(AARCH64_BOOT_INFO_ADDR, (bootInfo flags memRegions cmdline entryPoint).toBytes)]

def handoffRegs (entryPoint : BitVec 64) : List RegWrite :=
  [⟨AARCH64_REG_X0, .ofNat 64 AARCH64_BOOT_INFO_ADDR⟩, ⟨AARCH64_REG_X1, 0⟩, ⟨AARCH64_REG_X2, 0⟩, ⟨AARCH64_REG_X3, 0⟩,
    ⟨AARCH64_REG_PC, entryPoint⟩, ⟨AARCH64_REG_PSTATE, AARCH64_PSTATE_EL1H_DAIF⟩]

def buildHandoffFlagged (ram : List UInt8) (memRegions : List TbMemRegion) (cmdline : List UInt8)
    (entryPoint : BitVec 64) (flags : BitVec 32) : Except Aarch64HandoffError Aarch64Handoff × List UInt8 :=
  if AARCH64_MEM_REGIONS_ADDR + memRegions.length * TbMemRegion.SIZE > AARCH64_CMDLINE_ADDR then
    (.error .tooManyRegions, ram)
  else if AARCH64_CMDLINE_ADDR + cmdline.length + 1 > AARCH64_IMAGE_LMA then (.error .cmdlineTooLong, ram)
  else
    match writeAll ram (bootBlock memRegions cmdline entryPoint flags) with
    | (.error e, ram') => (.error e, ram')
    | (.ok _, ram') =>
        (.ok ⟨.ofNat 64 AARCH64_BOOT_INFO_ADDR, bootInfo flags memRegions cmdline entryPoint,
          handoffRegs entryPoint⟩, ram')

/-! ## What the writes leave -/

/-- A piece that the memory has a place for. -/
def InRam (ram : List UInt8) (p : Piece UInt8) : Prop :=
  AARCH64_GUEST_RAM_BASE ≤ p.1 ∧ p.1 - AARCH64_GUEST_RAM_BASE + p.2.length ≤ ram.length

variable {ram ram' : List UInt8}

theorem writeAt_of_inRam {gpa : Nat} {bytes : List UInt8} (hlen : ram.length < 2 ^ 64) (h : InRam ram (gpa, bytes)) :
    writeAt ram gpa bytes = (.ok (), ram.take (gpa - AARCH64_GUEST_RAM_BASE) ++ bytes ++
      ram.drop (gpa - AARCH64_GUEST_RAM_BASE + bytes.length)) := by
  obtain ⟨hbase, hstop⟩ := h
  dsimp only at hbase hstop
  rw [writeAt]
  rw [if_neg (by omega)]

theorem inRam_of_writeAt {gpa : Nat} {bytes : List UInt8} (h : writeAt ram gpa bytes = (.ok (), ram')) :
    InRam ram (gpa, bytes) ∧ ram' = ram.take (gpa - AARCH64_GUEST_RAM_BASE) ++ bytes ++
      ram.drop (gpa - AARCH64_GUEST_RAM_BASE + bytes.length) := by
  rw [writeAt] at h
  by_cases hbad : gpa < AARCH64_GUEST_RAM_BASE ∨ 2 ^ 64 ≤ gpa - AARCH64_GUEST_RAM_BASE + bytes.length ∨
      gpa - AARCH64_GUEST_RAM_BASE + bytes.length > ram.length
  · rw [if_pos hbad] at h
    exact absurd (Prod.mk.inj h).1 (by simp)
  · rw [if_neg hbad] at h
    obtain ⟨hbase, hstop⟩ := not_or.mp hbad
    exact ⟨⟨Nat.not_lt.mp hbase, by dsimp only; omega⟩, (Prod.mk.inj h).2.symm⟩

/-- A write lays its piece over the memory. -/
theorem laid_writeAt {gpa : Nat} {bytes : List UInt8} (h : writeAt ram gpa bytes = (.ok (), ram')) :
    ram'.length = ram.length ∧
      ∀ i, ram'[i]? = (Piece.look (gpa, bytes) (AARCH64_GUEST_RAM_BASE + i)).or ram[i]? := by
  obtain ⟨⟨hbase, hstop⟩, hram⟩ := inRam_of_writeAt h
  dsimp only at hbase hstop
  rw [hram]
  have hfront : (ram.take (gpa - AARCH64_GUEST_RAM_BASE)).length = gpa - AARCH64_GUEST_RAM_BASE := by
    rw [List.length_take]
    omega
  refine ⟨by simp only [List.length_append, hfront, List.length_drop]; omega, fun i => ?_⟩
  rw [List.append_assoc, Piece.look]
  by_cases hlow : i < gpa - AARCH64_GUEST_RAM_BASE
  · rw [if_neg (by omega), List.getElem?_append_left (by omega), List.getElem?_take, if_pos hlow, Option.none_or]
  · rw [if_pos (by omega), List.getElem?_append_right (by omega), hfront,
      show AARCH64_GUEST_RAM_BASE + i - gpa = i - (gpa - AARCH64_GUEST_RAM_BASE) by omega]
    by_cases hin : i - (gpa - AARCH64_GUEST_RAM_BASE) < bytes.length
    · rw [List.getElem?_append_left hin, List.getElem?_eq_getElem hin, Option.some_or]
    · have hback : gpa - AARCH64_GUEST_RAM_BASE + bytes.length +
          (i - (gpa - AARCH64_GUEST_RAM_BASE) - bytes.length) = i := by omega
      rw [List.getElem?_append_right (by omega), List.getElem?_drop, hback,
        List.getElem?_eq_none (by omega : bytes.length ≤ _), Option.none_or]

theorem laid_writeAll {ps : List (Piece UInt8)} (h : writeAll ram ps = (.ok (), ram')) :
    ram'.length = ram.length ∧ ∀ i, ram'[i]? = (overlay ps (AARCH64_GUEST_RAM_BASE + i)).or ram[i]? := by
  induction ps generalizing ram with
  | nil =>
      cases h
      exact ⟨rfl, fun i => (Option.none_or).symm⟩
  | cons p ps ih =>
      rw [writeAll] at h
      split at h
      case h_1 u ram₁ hw =>
        obtain ⟨hlen, hlook⟩ := laid_writeAt hw
        obtain ⟨hlen', hlook'⟩ := ih h
        refine ⟨hlen'.trans hlen, fun i => ?_⟩
        rw [hlook', hlook, overlay_cons, Option.or_assoc]
      case h_2 => cases h

/-- All writes succeed exactly if each piece has its place. -/
theorem writeAll_eq_ok_iff {ps : List (Piece UInt8)} (hlen : ram.length < 2 ^ 64) :
    (∃ ram', writeAll ram ps = (.ok (), ram')) ↔ ∀ p ∈ ps, InRam ram p := by
  induction ps generalizing ram with
  | nil => simp [writeAll]
  | cons p ps ih =>
      rw [List.forall_mem_cons, writeAll]
      constructor
      · rintro ⟨ram', h⟩
        split at h
        case h_1 u ram₁ hw =>
          have hsame := (laid_writeAt hw).1
          have hrest := (ih (hsame.symm ▸ hlen)).mp ⟨ram', h⟩
          simp only [InRam, hsame] at hrest
          exact ⟨(inRam_of_writeAt hw).1, hrest⟩
        case h_2 => cases h
      · rintro ⟨hp, hrest⟩
        have hw := writeAt_of_inRam hlen hp
        have hsame := (laid_writeAt hw).1
        obtain ⟨ram', h⟩ := (ih (hsame.symm ▸ hlen)).mpr (by simpa only [InRam, hsame] using hrest)
        exact ⟨ram', by rw [hw]; exact h⟩

/-- The memory from a guest address on. -/
def ramFrom (ram : List UInt8) (gpa : Nat) : List UInt8 := ram.drop (gpa - AARCH64_GUEST_RAM_BASE)

/-- What the pieces show from an address on is what is read there. -/
theorem ramFrom_of_overlay {ps : List (Piece UInt8)} {gpa : Nat} {bytes : List UInt8}
    (h : writeAll ram ps = (.ok (), ram')) (hbase : AARCH64_GUEST_RAM_BASE ≤ gpa)
    (hbytes : ∀ j < bytes.length, overlay ps (gpa + j) = bytes[j]?) :
    ∃ rest, ramFrom ram' gpa = bytes ++ rest := by
  obtain ⟨-, hlook⟩ := laid_writeAll h
  refine ⟨(ramFrom ram' gpa).drop bytes.length, List.ext_getElem? fun j => ?_⟩
  by_cases hj : j < bytes.length
  · rw [ramFrom, List.getElem?_drop, List.getElem?_append_left hj, hlook,
      show AARCH64_GUEST_RAM_BASE + (gpa - AARCH64_GUEST_RAM_BASE + j) = gpa + j by omega, hbytes j hj,
      List.getElem?_eq_getElem hj, Option.some_or]
  · have hback : bytes.length + (j - bytes.length) = j := by omega
    rw [List.getElem?_append_right (by omega), List.getElem?_drop, hback]

/-! ## The boot block -/

section Block

variable {memRegions : List TbMemRegion} {cmdline : List UInt8} {entryPoint : BitVec 64} {flags : BitVec 32}

/-- The packed regions. -/
def packed (memRegions : List TbMemRegion) : List UInt8 := memRegions.flatMap TbMemRegion.toBytes

theorem length_packed (memRegions : List TbMemRegion) :
    (packed memRegions).length = memRegions.length * TbMemRegion.SIZE := by
  simp [packed, List.length_flatMap]

/-- The three structures, each in one piece. -/
theorem overlay_bootBlock (a : Nat) : overlay (bootBlock memRegions cmdline entryPoint flags) a =
    (Piece.look (AARCH64_BOOT_INFO_ADDR, (bootInfo flags memRegions cmdline entryPoint).toBytes) a).or
      ((Piece.look (AARCH64_CMDLINE_ADDR, cmdline ++ [0]) a).or
        (Piece.look (AARCH64_MEM_REGIONS_ADDR, packed memRegions) a)) := by
  have hregions : overlay (regionWrites memRegions) a =
      Piece.look (AARCH64_MEM_REGIONS_ADDR, packed memRegions) a := by
    rw [regionWrites, overlay_consecutive, packed, List.flatMap_def]
    intro bytes hbytes
    obtain ⟨r, -, rfl⟩ := List.mem_map.mp hbytes
    exact r.length_toBytes
  have hcmdline : overlay (cmdlineWrites cmdline) a = Piece.look (AARCH64_CMDLINE_ADDR, cmdline ++ [0]) a := by
    rw [cmdlineWrites, overlay_cons, overlay_cons, overlay_nil, Option.none_or, Piece.look_append]
  rw [bootBlock, overlay_append, overlay_append, hregions, hcmdline, overlay_cons, overlay_nil, Option.none_or]

/-- What `Ok` means: the two bounds hold, and the block was written. -/
theorem build_eq_ok {h : Aarch64Handoff}
    (hbuild : buildHandoffFlagged ram memRegions cmdline entryPoint flags = (.ok h, ram')) :
    (AARCH64_MEM_REGIONS_ADDR + memRegions.length * TbMemRegion.SIZE ≤ AARCH64_CMDLINE_ADDR ∧
      AARCH64_CMDLINE_ADDR + cmdline.length + 1 ≤ AARCH64_IMAGE_LMA) ∧
    writeAll ram (bootBlock memRegions cmdline entryPoint flags) = (.ok (), ram') ∧
    h = ⟨.ofNat 64 AARCH64_BOOT_INFO_ADDR, bootInfo flags memRegions cmdline entryPoint, handoffRegs entryPoint⟩ := by
  rw [buildHandoffFlagged] at hbuild
  split at hbuild
  · exact absurd (Prod.mk.inj hbuild).1 (by simp)
  case isFalse hregions =>
    split at hbuild
    · exact absurd (Prod.mk.inj hbuild).1 (by simp)
    case isFalse hcmdline =>
      refine ⟨⟨Nat.not_lt.mp hregions, Nat.not_lt.mp hcmdline⟩, ?_⟩
      cases hw : writeAll ram (bootBlock memRegions cmdline entryPoint flags) with
      | mk r ram₁ =>
          rw [hw] at hbuild
          cases r with
          | error e => exact absurd (Prod.mk.inj hbuild).1 (by simp)
          | ok u =>
              obtain ⟨hh, hram⟩ := Prod.mk.inj hbuild
              exact ⟨by rw [hram], (Except.ok.inj hh).symm⟩

/-- No structure reaches into another. -/
theorem overlay_apart
    (hregions : AARCH64_MEM_REGIONS_ADDR + memRegions.length * TbMemRegion.SIZE ≤ AARCH64_CMDLINE_ADDR) (a : Nat) :
    overlay (bootBlock memRegions cmdline entryPoint flags) a =
      if a < AARCH64_MEM_REGIONS_ADDR then
        Piece.look (AARCH64_BOOT_INFO_ADDR, (bootInfo flags memRegions cmdline entryPoint).toBytes) a
      else if a < AARCH64_CMDLINE_ADDR then Piece.look (AARCH64_MEM_REGIONS_ADDR, packed memRegions) a
      else Piece.look (AARCH64_CMDLINE_ADDR, cmdline ++ [0]) a := by
  have hinfo : (bootInfo flags memRegions cmdline entryPoint).toBytes.length = 56 := TbBootInfo.length_toBytes _
  have hpacked := length_packed memRegions
  have hplaces : AARCH64_BOOT_INFO_ADDR + 56 ≤ AARCH64_MEM_REGIONS_ADDR := by decide
  rw [overlay_bootBlock]
  by_cases hlow : a < AARCH64_MEM_REGIONS_ADDR
  · have hcmdline : Piece.look (AARCH64_CMDLINE_ADDR, cmdline ++ [0]) a = none :=
      Piece.look_eq_none.mpr (.inl (by omega))
    have hpieces : Piece.look (AARCH64_MEM_REGIONS_ADDR, packed memRegions) a = none :=
      Piece.look_eq_none.mpr (.inl hlow)
    rw [if_pos hlow, hcmdline, hpieces, Option.none_or, Option.or_none]
  · have hnone : Piece.look (AARCH64_BOOT_INFO_ADDR, (bootInfo flags memRegions cmdline entryPoint).toBytes) a = none :=
      Piece.look_eq_none.mpr (.inr (by dsimp only; omega))
    rw [if_neg hlow, hnone, Option.none_or]
    by_cases hmid : a < AARCH64_CMDLINE_ADDR
    · have hcmdline : Piece.look (AARCH64_CMDLINE_ADDR, cmdline ++ [0]) a = none := Piece.look_eq_none.mpr (.inl hmid)
      rw [if_pos hmid, hcmdline, Option.none_or]
    · have hpieces : Piece.look (AARCH64_MEM_REGIONS_ADDR, packed memRegions) a = none :=
        Piece.look_eq_none.mpr (.inr (by dsimp only; omega))
      rw [if_neg hmid, hpieces, Option.or_none]

/-- The memory behind a structure's address starts with the structure. -/
theorem ramFrom_bootBlock
    (hregions : AARCH64_MEM_REGIONS_ADDR + memRegions.length * TbMemRegion.SIZE ≤ AARCH64_CMDLINE_ADDR)
    (h : writeAll ram (bootBlock memRegions cmdline entryPoint flags) = (.ok (), ram')) :
    (∃ rest, ramFrom ram' AARCH64_BOOT_INFO_ADDR = (bootInfo flags memRegions cmdline entryPoint).toBytes ++ rest) ∧
      (∃ rest, ramFrom ram' AARCH64_MEM_REGIONS_ADDR = packed memRegions ++ rest) ∧
      ∃ rest, ramFrom ram' AARCH64_CMDLINE_ADDR = cmdline ++ [0] ++ rest := by
  have hinfo : (bootInfo flags memRegions cmdline entryPoint).toBytes.length = 56 := TbBootInfo.length_toBytes _
  have hpacked := length_packed memRegions
  have hplaces : AARCH64_BOOT_INFO_ADDR + 56 ≤ AARCH64_MEM_REGIONS_ADDR ∧
      AARCH64_MEM_REGIONS_ADDR < AARCH64_CMDLINE_ADDR := by decide
  refine ⟨ramFrom_of_overlay h (by decide) fun j hj => ?_, ramFrom_of_overlay h (by decide) fun j hj => ?_,
    ramFrom_of_overlay h (by decide) fun j _ => ?_⟩
  · rw [overlay_apart hregions, if_pos (by omega), Piece.look_add]
  · rw [overlay_apart hregions, if_neg (by omega), if_pos (by omega), Piece.look_add]
  · rw [overlay_apart hregions, if_neg (by omega), if_neg (by omega), Piece.look_add]

theorem inRam_bootBlock
    (hregions : AARCH64_MEM_REGIONS_ADDR + memRegions.length * TbMemRegion.SIZE ≤ AARCH64_CMDLINE_ADDR) :
    (∀ p ∈ bootBlock memRegions cmdline entryPoint flags, InRam ram p) ↔
      AARCH64_CMDLINE_ADDR + cmdline.length + 1 ≤ AARCH64_GUEST_RAM_BASE + ram.length := by
  have hinfo : (bootInfo flags memRegions cmdline entryPoint).toBytes.length = 56 := TbBootInfo.length_toBytes _
  have hplaces : AARCH64_GUEST_RAM_BASE ≤ AARCH64_BOOT_INFO_ADDR ∧
      AARCH64_BOOT_INFO_ADDR + 56 ≤ AARCH64_MEM_REGIONS_ADDR ∧ AARCH64_MEM_REGIONS_ADDR < AARCH64_CMDLINE_ADDR := by
    decide
  constructor
  · intro hall
    have hnul : InRam ram (AARCH64_CMDLINE_ADDR + cmdline.length, [0]) := hall _ (by simp [bootBlock, cmdlineWrites])
    have := hnul.2
    simp only [List.length_singleton] at this
    omega
  · intro hroom p hp
    simp only [bootBlock, cmdlineWrites, List.mem_append, List.mem_cons, List.not_mem_nil, or_false] at hp
    rcases hp with (hp | rfl | rfl) | rfl
    · obtain ⟨⟨bytes, i⟩, hmem, rfl⟩ := List.mem_map.mp hp
      have hi := List.snd_lt_of_mem_zipIdx hmem
      have hbytes : bytes.length = TbMemRegion.SIZE := by
        obtain ⟨r, -, rfl⟩ := List.mem_map.mp (List.fst_mem_of_mem_zipIdx hmem)
        exact r.length_toBytes
      have hend : i * TbMemRegion.SIZE + TbMemRegion.SIZE ≤ memRegions.length * TbMemRegion.SIZE := by
        rw [← Nat.succ_mul]
        exact Nat.mul_le_mul_right _ (Nat.succ_le_of_lt (by simpa using hi))
      exact ⟨by dsimp only; omega, by dsimp only; omega⟩
    · exact ⟨by dsimp only; omega, by dsimp only; omega⟩
    · exact ⟨by dsimp only; omega, by simp only [List.length_singleton]; omega⟩
    · exact ⟨by dsimp only; omega, by dsimp only; omega⟩

/-- The block is built where the bounds hold and the memory reaches behind the NUL. -/
theorem build_eq_ok_iff (hlen : ram.length < 2 ^ 64) :
    (∃ h ram', buildHandoffFlagged ram memRegions cmdline entryPoint flags = (.ok h, ram')) ↔
      (AARCH64_MEM_REGIONS_ADDR + memRegions.length * TbMemRegion.SIZE ≤ AARCH64_CMDLINE_ADDR ∧
        AARCH64_CMDLINE_ADDR + cmdline.length + 1 ≤ AARCH64_IMAGE_LMA) ∧
      AARCH64_CMDLINE_ADDR + cmdline.length + 1 ≤ AARCH64_GUEST_RAM_BASE + ram.length := by
  constructor
  · rintro ⟨h, ram', hbuild⟩
    obtain ⟨hbounds, hw, -⟩ := build_eq_ok hbuild
    exact ⟨hbounds, (inRam_bootBlock hbounds.1).mp ((writeAll_eq_ok_iff hlen).mp ⟨ram', hw⟩)⟩
  · rintro ⟨⟨hregions, hcmdline⟩, hroom⟩
    have hin : ∀ p ∈ bootBlock memRegions cmdline entryPoint flags, InRam ram p :=
      (inRam_bootBlock hregions).mpr hroom
    obtain ⟨ram', hw⟩ := (writeAll_eq_ok_iff hlen).mpr hin
    rw [buildHandoffFlagged, if_neg (Nat.not_lt.mpr hregions), if_neg (Nat.not_lt.mpr hcmdline), hw]
    exact ⟨_, _, rfl⟩

/-- What the kernel reads at `X0` is what the block was built from. -/
theorem read_back {h : Aarch64Handoff}
    (hbuild : buildHandoffFlagged ram memRegions cmdline entryPoint flags = (.ok h, ram')) :
    (∃ x0, h.reg AARCH64_REG_X0 = some x0 ∧ TbBootInfo.readValidated (ramFrom ram' x0.toNat) = .ok h.info) ∧
      (h.info.flags = flags ∧ h.info.kernelEntry = entryPoint ∧ h.reg AARCH64_REG_PC = some entryPoint) ∧
      regionsFromBytes (slice (ramFrom ram' h.info.memRegionsPtr.toNat) 0
        (h.info.memRegionsLen.toNat * TbMemRegion.SIZE)) h.info.memRegionsLen.toNat = memRegions ∧
      (h.info.cmdlineLen.toNat = cmdline.length ∧
        slice (ramFrom ram' h.info.cmdlinePtr.toNat) 0 (cmdline.length + 1) = cmdline ++ [0]) ∧
      ram'.length = ram.length ∧
      ∀ i, AARCH64_GUEST_RAM_BASE + i < AARCH64_BOOT_INFO_ADDR ∨ AARCH64_IMAGE_LMA ≤ AARCH64_GUEST_RAM_BASE + i →
        ram'[i]? = ram[i]? := by
  obtain ⟨⟨hregions, hcmdline⟩, hw, hh⟩ := build_eq_ok hbuild
  obtain ⟨⟨afterInfo, hinfo⟩, ⟨afterRegions, hpacked⟩, ⟨afterCmdline, hcmd⟩⟩ := ramFrom_bootBlock hregions hw
  obtain ⟨hlen, hlook⟩ := laid_writeAll hw
  have hn : h.info.memRegionsLen.toNat = memRegions.length := by
    simp only [AARCH64_MEM_REGIONS_ADDR, AARCH64_CMDLINE_ADDR, TbMemRegion.SIZE] at hregions
    rw [hh]
    exact (BitVec.toNat_ofNat _ _).trans (Nat.mod_eq_of_lt (by omega))
  have hc : h.info.cmdlineLen.toNat = cmdline.length := by
    simp only [AARCH64_CMDLINE_ADDR, AARCH64_IMAGE_LMA] at hcmdline
    rw [hh]
    exact (BitVec.toNat_ofNat _ _).trans (Nat.mod_eq_of_lt (by omega))
  have hptr : h.info.memRegionsPtr.toNat = AARCH64_MEM_REGIONS_ADDR := by
    rw [hh]
    rfl
  have hcptr : h.info.cmdlinePtr.toNat = AARCH64_CMDLINE_ADDR := by
    rw [hh]
    rfl
  refine ⟨⟨.ofNat 64 AARCH64_BOOT_INFO_ADDR, by rw [hh]; rfl, ?_⟩, by rw [hh]; exact ⟨rfl, rfl, rfl⟩, ?_, ⟨hc, ?_⟩,
    hlen, fun i hi => ?_⟩
  · have haddr : (BitVec.ofNat 64 AARCH64_BOOT_INFO_ADDR).toNat = AARCH64_BOOT_INFO_ADDR := rfl
    rw [haddr, hinfo, hh]
    exact TbBootInfo.readValidated_new _ _ _ _ _ _ _
  · rw [hn, hptr, hpacked, ← length_packed, slice_here _ _ rfl]
    simpa [packed] using regionsFromBytes_toBytes memRegions []
  · rw [hcptr, hcmd]
    exact slice_here _ _ (by simp)
  · have hpackedLen := length_packed memRegions
    have hinfoLen : (bootInfo flags memRegions cmdline entryPoint).toBytes.length = 56 := TbBootInfo.length_toBytes _
    have hplaces : AARCH64_BOOT_INFO_ADDR + 56 ≤ AARCH64_MEM_REGIONS_ADDR ∧
        AARCH64_MEM_REGIONS_ADDR < AARCH64_CMDLINE_ADDR := by decide
    have hnone : overlay (bootBlock memRegions cmdline entryPoint flags) (AARCH64_GUEST_RAM_BASE + i) = none := by
      simp only [overlay_bootBlock, Option.or_eq_none_iff, Piece.look_eq_none, List.length_append,
        List.length_singleton]
      omega
    rw [hlook, hnone, Option.none_or]

/-- Two regions and a command line of one byte. -/
theorem read_back_two : ∃ h ram', buildHandoffFlagged (List.replicate 0x2000 0)
    [.new 0x40000000 0x1000000 .ram, .new 0x9000000 0x1000 .reserved] [0x78] 0x40080000 1 = (.ok h, ram') ∧
    ∃ x0, h.reg AARCH64_REG_X0 = some x0 ∧ TbBootInfo.readValidated (ramFrom ram' x0.toNat) = .ok h.info := by
  have hlen : (List.replicate 0x2000 (0 : UInt8)).length = 0x2000 := List.length_replicate
  obtain ⟨h, ram', hbuild⟩ : ∃ h ram', buildHandoffFlagged (List.replicate 0x2000 0)
      [.new 0x40000000 0x1000000 .ram, .new 0x9000000 0x1000 .reserved] [0x78] 0x40080000 1 = (.ok h, ram') :=
    (build_eq_ok_iff (by rw [hlen]; decide)).mpr ⟨by decide, by rw [hlen]; decide⟩
  exact ⟨h, ram', hbuild, (read_back hbuild).1⟩

end Block

end Yuva.Boot
