/-
# `Yuva.Vmm.Boot` — the boot structures

`tb-vmm/src/arch/x86_64/boot.rs`, the part that writes guest memory, behind the loader as
`Vmm::new` calls them.  The structures stand at fixed addresses:

    0x0500  boot GDT          0x6000  boot info         0x9000  PML4
    0x0520  boot IDT          0x6040  memory regions    0xa000  PDPTE
                              0x6800  command line      0xb000  PDE

They are written after the segments, and nothing compares the two.

The calls of the hypervisor are left out; they do not write guest memory.

**Proved here.**  What the kernel is handed can always be read, and the segments still stand
in memory exactly when they agree with the structures wherever the two meet
(`boot_image_intact_iff`).
-/
import Yuva.Vmm.Loader

namespace Yuva.Vmm

open Yuva.Bytes Yuva.Boot Yuva.Overlay Yuva.Checked

def BOOT_GDT_OFFSET : Nat := 0x500
def BOOT_IDT_OFFSET : Nat := 0x520
def PML4_START : Nat := 0x9000
def PDPTE_START : Nat := 0xa000
def PDE_START : Nat := 0xb000

def TB_BOOT_INFO_ADDR : Nat := 0x6000
def TB_MEM_REGIONS_ADDR : Nat := 0x6040
def TB_CMDLINE_ADDR : Nat := 0x6800
def TB_LOWMEM_LIMIT : Nat := PML4_START

def TB_BOOT_INFO_SIZE : Nat := 56
def TB_MEM_REGION_SIZE : Nat := 24

inductive VmmError where
  | guestMemoryCreate (detail : String)
  | memoryAccess (detail : String)
  | loader (e : LoaderError)
  | config (msg : String)
  deriving DecidableEq, Repr

/-! ## What is written -/

def gdtEntry (flags : BitVec 16) (base limit : BitVec 32) : BitVec 64 :=
  ((base.setWidth 64 &&& 0xff000000) <<< (56 - 24)) ||| ((flags.setWidth 64 &&& 0xf0ff) <<< 40) |||
    ((limit.setWidth 64 &&& 0x000f0000) <<< (48 - 16)) ||| ((base.setWidth 64 &&& 0x00ffffff) <<< 16) |||
    (limit.setWidth 64 &&& 0xffff)

/-- Null, code, data and task segment. -/
def gdtTable : List (BitVec 64) :=
  [gdtEntry 0 0 0, gdtEntry 0xa09b 0 0xfffff, gdtEntry 0xc093 0 0xfffff, gdtEntry 0x808b 0 0xfffff]

example : gdtTable = [0, 0x00af9b000000ffff, 0x00cf93000000ffff, 0x008f8b000000ffff] := by decide

def gdtWrites : List (Piece UInt8) :=
  gdtTable.zipIdx.map fun x => (BOOT_GDT_OFFSET + x.2 * 8, le 8 x.1.toNat)

def idtWrites : List (Piece UInt8) := [(BOOT_IDT_OFFSET, le 8 0)]

/-- One entry each of the upper levels, and 512 pages of 2 MiB. -/
def pageTableWrites : List (Piece UInt8) :=
  (PML4_START, le 8 (PDPTE_START ||| 0x03)) :: (PDPTE_START, le 8 (PDE_START ||| 0x03)) ::
    (List.range 512).map fun i => (PDE_START + i * 8, le 8 (i <<< 21 ||| 0x83))

def serializeMemRegion (base len : BitVec 64) (kind : BitVec 32) : List UInt8 :=
  le 8 base.toNat ++ le 8 len.toNat ++ le 4 kind.toNat ++ List.replicate 4 0

def serializeBootInfo (magic : BitVec 64) (version flags : BitVec 32)
    (memRegionsPtr memRegionsLen cmdlinePtr cmdlineLen kernelEntry : BitVec 64) : List UInt8 :=
  le 8 magic.toNat ++ le 4 version.toNat ++ le 4 flags.toNat ++ le 8 memRegionsPtr.toNat ++
    le 8 memRegionsLen.toNat ++ le 8 cmdlinePtr.toNat ++ le 8 cmdlineLen.toNat ++ le 8 kernelEntry.toNat

structure BootParams where
  entryPoint : BitVec 64
  memRegions : List MemRegion
  cmdline : List UInt8

def regionWrites (regions : List MemRegion) : List (Piece UInt8) :=
  (regions.map fun r => serializeMemRegion r.base r.len r.kind.asU32).zipIdx.map fun x =>
    (TB_MEM_REGIONS_ADDR + x.2 * TB_MEM_REGION_SIZE, x.1)

/-- The command line and its NUL. -/
def cmdlineWrites (cmd : List UInt8) : List (Piece UInt8) :=
  [(TB_CMDLINE_ADDR, cmd), (TB_CMDLINE_ADDR + cmd.length, [0])]

def bootInfoBytes (params : BootParams) : List UInt8 :=
  serializeBootInfo TB_BOOT_MAGIC TB_BOOT_VERSION 0 (.ofNat 64 TB_MEM_REGIONS_ADDR)
    (.ofNat 64 params.memRegions.length) (.ofNat 64 TB_CMDLINE_ADDR) (.ofNat 64 params.cmdline.length)
    params.entryPoint

def bootInfoWrites (params : BootParams) : List (Piece UInt8) := [(TB_BOOT_INFO_ADDR, bootInfoBytes params)]

/-! ## The writers -/

section Write

variable (V : VmMemory)

def writePieces (m : V.GuestMemoryMmap) (ps : List (Piece UInt8)) : Except VmmError V.GuestMemoryMmap :=
  (V.writeAll m ps).mapError .memoryAccess

def writeGdt (m : V.GuestMemoryMmap) : Except VmmError V.GuestMemoryMmap := writePieces V m gdtWrites

def writeIdt (m : V.GuestMemoryMmap) : Except VmmError V.GuestMemoryMmap := writePieces V m idtWrites

def setupPageTables (m : V.GuestMemoryMmap) : Except VmmError V.GuestMemoryMmap :=
  writePieces V m pageTableWrites

/-- The address of the boot info, and the memory with the structures in it. -/
def writeSystemMemory (m : V.GuestMemoryMmap) (params : BootParams) :
    Except VmmError (Nat × V.GuestMemoryMmap) := do
  let n := params.memRegions.length
  let regionsEnd := TB_MEM_REGIONS_ADDR + n * TB_MEM_REGION_SIZE
  if regionsEnd > TB_CMDLINE_ADDR then
    throw (.config "too many memory regions for the tb-boot low-memory window")
  if TB_CMDLINE_ADDR + params.cmdline.length + 1 > TB_LOWMEM_LIMIT then
    throw (.config "kernel cmdline too long for the boot window")
  let m ← writeGdt V m
  let m ← writeIdt V m
  let m ← setupPageTables V m
  let m ← writePieces V m (regionWrites params.memRegions)
  let m ← writePieces V m (cmdlineWrites params.cmdline)
  let m ← writePieces V m (bootInfoWrites params)
  return (TB_BOOT_INFO_ADDR, m)

/-- The machine about to be started: its memory, and the two registers the kernel relies on. -/
structure ReadyVmm where
  mem : V.GuestMemoryMmap
  rip : BitVec 64
  rdi : Nat

/-- `Vmm::new` from the allocated memory on. -/
def ReadyVmm.newOn (ram : GuestRam V) (image cmdline : List UInt8) : Except VmmError (ReadyVmm V) := do
  let (loaded, m) ← (loadKernel V image ram.inner).mapError .loader
  let (bootInfoAddr, m) ← writeSystemMemory V m ⟨loaded.entry, ram.regions, cmdline⟩
  return ⟨m, loaded.entry, bootInfoAddr⟩

def ReadyVmm.new (memBytes : BitVec 64) (image cmdline : List UInt8) : Except VmmError (ReadyVmm V) := do
  let ram ← (GuestRam.new V memBytes).mapError .guestMemoryCreate
  ReadyVmm.newOn V ram image cmdline

end Write

/-! ## What is written, altogether -/

/-- Every piece of the boot structures, in the order they are written. -/
def bootWrites (params : BootParams) : List (Piece UInt8) :=
  gdtWrites ++ idtWrites ++ pageTableWrites ++ regionWrites params.memRegions ++
    cmdlineWrites params.cmdline ++ bootInfoWrites params

/-- The two bounds `write_system_memory` checks. -/
structure BootParams.Fits (params : BootParams) : Prop where
  regions : TB_MEM_REGIONS_ADDR + params.memRegions.length * TB_MEM_REGION_SIZE ≤ TB_CMDLINE_ADDR
  cmdline : TB_CMDLINE_ADDR + params.cmdline.length + 1 ≤ TB_LOWMEM_LIMIT

variable {V : VmMemory}

theorem laid_writePieces {m m' : V.GuestMemoryMmap} {ps : List (Piece UInt8)}
    (h : writePieces V m ps = .ok m') : VmMemory.Laid m ps m' :=
  VmMemory.laid_writeAll (ok_of_mapError h)

theorem laid_writeSystemMemory {m m' : V.GuestMemoryMmap} {params : BootParams} {addr : Nat}
    (h : writeSystemMemory V m params = .ok (addr, m')) :
    addr = TB_BOOT_INFO_ADDR ∧ params.Fits ∧ VmMemory.Laid m (bootWrites params) m' := by
  unfold writeSystemMemory at h
  dsimp only at h
  split at h
  · cases h
  case isFalse hregions =>
    split at h
    · cases h
    case isFalse hcmdline =>
      obtain ⟨m₁, hgdt, h⟩ := bind_eq_ok.mp h
      obtain ⟨m₂, hidt, h⟩ := bind_eq_ok.mp h
      obtain ⟨m₃, hpages, h⟩ := bind_eq_ok.mp h
      obtain ⟨m₄, hregs, h⟩ := bind_eq_ok.mp h
      obtain ⟨m₅, hcmd, h⟩ := bind_eq_ok.mp h
      obtain ⟨m₆, hinfo, h⟩ := bind_eq_ok.mp h
      cases h
      refine ⟨rfl, ⟨Nat.le_of_not_lt hregions, Nat.le_of_not_lt hcmdline⟩, ?_⟩
      exact (((((laid_writePieces hgdt).trans (laid_writePieces hidt)).trans (laid_writePieces hpages)).trans
        (laid_writePieces hregs)).trans (laid_writePieces hcmd)).trans (laid_writePieces hinfo)

/-! ## What the kernel is handed -/

/-- The monitor serialises by hand what `tb_boot` describes. -/
theorem serializeMemRegion_eq (base len : BitVec 64) (kind : MemKind) :
    serializeMemRegion base len kind.asU32 = (TbMemRegion.new base len kind).toBytes := by
  simp only [serializeMemRegion, TbMemRegion.toBytes, TbMemRegion.fields, TbMemRegion.new, List.flatten_cons,
    List.flatten_nil, List.append_nil, List.append_assoc]
  rfl

theorem bootInfoBytes_eq (params : BootParams) : bootInfoBytes params =
    (TbBootInfo.new 0 (.ofNat 64 TB_MEM_REGIONS_ADDR) (.ofNat 64 params.memRegions.length)
      (.ofNat 64 TB_CMDLINE_ADDR) (.ofNat 64 params.cmdline.length) params.entryPoint).toBytes := by
  simp only [bootInfoBytes, serializeBootInfo, TbBootInfo.toBytes, TbBootInfo.fields, TbBootInfo.new,
    List.flatten_cons, List.flatten_nil, List.append_nil, List.append_assoc]

theorem length_bootInfoBytes (params : BootParams) : (bootInfoBytes params).length = TB_BOOT_INFO_SIZE := by
  rw [bootInfoBytes_eq, TbBootInfo.length_toBytes]
  rfl

/-- The regions as the kernel reads them. -/
def handedRegions (regions : List MemRegion) : List TbMemRegion :=
  regions.map fun r => TbMemRegion.new r.base r.len r.kind

/-- The boot info stands at the address in `rdi` and validates, and the memory map and the
command line stand where it says. -/
def HandoffReadable (regions : List MemRegion) (cmdline : List UInt8) (vm : ReadyVmm V) : Prop :=
  ∃ bytes info, V.readSlice vm.mem vm.rdi TB_BOOT_INFO_SIZE = .ok bytes ∧
    TbBootInfo.readValidated bytes = .ok info ∧ info.kernelEntry = vm.rip ∧
    info.memRegionsLen.toNat = regions.length ∧
    (regions ≠ [] → ∃ array, V.readSlice vm.mem info.memRegionsPtr.toNat
        (info.memRegionsLen.toNat * TB_MEM_REGION_SIZE) = .ok array ∧
      regionsFromBytes array info.memRegionsLen.toNat = handedRegions regions) ∧
    info.cmdlineLen.toNat = cmdline.length ∧
    V.readSlice vm.mem info.cmdlinePtr.toNat (info.cmdlineLen.toNat + 1) = .ok (cmdline ++ [0])

theorem length_handed (regions : List MemRegion) : (handedRegions regions).length = regions.length :=
  List.length_map _

theorem look_overlay_regions (regions : List MemRegion) (a : Nat) : overlay (regionWrites regions) a =
    Piece.look (TB_MEM_REGIONS_ADDR, (handedRegions regions).flatMap TbMemRegion.toBytes) a := by
  rw [regionWrites, overlay_consecutive, handedRegions, List.flatMap_map, List.flatMap_def]
  · simp only [serializeMemRegion_eq]
  · intro bytes hbytes
    obtain ⟨r, -, rfl⟩ := List.mem_map.mp hbytes
    rw [serializeMemRegion_eq, TbMemRegion.length_toBytes]
    rfl

theorem look_overlay_cmdline (cmd : List UInt8) (a : Nat) :
    overlay (cmdlineWrites cmd) a = Piece.look (TB_CMDLINE_ADDR, cmd ++ [0]) a := by
  rw [cmdlineWrites, overlay_cons, overlay_cons, overlay_nil, Option.none_or, Piece.look_append]

theorem length_handedRegions (regions : List MemRegion) :
    ((handedRegions regions).flatMap TbMemRegion.toBytes).length = regions.length * TB_MEM_REGION_SIZE := by
  rw [List.length_flatMap, handedRegions, List.map_map]
  simp [Function.comp_def, TbMemRegion.SIZE, TB_MEM_REGION_SIZE]

section Handoff

variable {m m' : V.GuestMemoryMmap} {params : BootParams}

/-- The page tables stand above everything the kernel is handed. -/
theorem lowmem_inside (h : VmMemory.Laid m (bootWrites params) m') : TB_LOWMEM_LIMIT ≤ V.size m' := by
  have hmem : (PML4_START, le 8 (PDPTE_START ||| 0x03)) ∈ bootWrites params := by
    simp [bootWrites, pageTableWrites]
  have hin := h.inside _ hmem (List.ne_nil_of_length_pos (by rw [length_le]; decide))
  rw [h.size]
  exact Nat.le_trans (Nat.le_add_right _ _) hin

theorem readSlice_bootInfo (h : VmMemory.Laid m (bootWrites params) m') :
    V.readSlice m' TB_BOOT_INFO_ADDR TB_BOOT_INFO_SIZE = .ok (bootInfoBytes params) := by
  have hlen := length_bootInfoBytes params
  have hin := lowmem_inside h
  rw [← hlen]
  refine VmMemory.readSlice_of_byte (List.ne_nil_of_length_pos (by rw [hlen]; decide)) ?_ fun i b hb => ?_
  · rw [hlen]
    exact Nat.le_trans (by decide) hin
  · have hi := (List.getElem?_eq_some_iff.mp hb).1
    rw [h.byte, bootWrites, bootInfoWrites, overlay_of_untouched (by simpa using hi) (by simp)]
    rw [Piece.look_add (p := (TB_BOOT_INFO_ADDR, bootInfoBytes params)), hb, Option.getD_some]

/-- A piece of the lower structures that the boot info, written last, does not reach. -/
theorem byte_below_info {ps : List (Piece UInt8)} {a : Nat} {b : UInt8}
    (h : VmMemory.Laid m (ps ++ bootInfoWrites params) m') (hb : overlay ps a = some b)
    (habove : TB_MEM_REGIONS_ADDR ≤ a) : V.byte m' a = b := by
  have hinfo : overlay (bootInfoWrites params) a = none := by
    refine overlay_eq_none.mpr fun p hp => Piece.look_eq_none.mpr (.inr ?_)
    rw [List.mem_singleton.mp hp, length_bootInfoBytes]
    exact Nat.le_trans (by decide : TB_BOOT_INFO_ADDR + TB_BOOT_INFO_SIZE ≤ TB_MEM_REGIONS_ADDR) habove
  rw [h.byte, overlay_append, hinfo, Option.none_or, hb, Option.getD_some]

theorem readSlice_cmdline (hfits : params.Fits) (h : VmMemory.Laid m (bootWrites params) m') :
    V.readSlice m' TB_CMDLINE_ADDR (params.cmdline.length + 1) = .ok (params.cmdline ++ [0]) := by
  have hlen : (params.cmdline ++ [0]).length = params.cmdline.length + 1 := by simp
  have hin := lowmem_inside h
  have hcmd := hfits.cmdline
  rw [← hlen]
  refine VmMemory.readSlice_of_byte (by simp) ?_ fun i b hb => ?_
  · rw [hlen]
    omega
  · have hshow : overlay (gdtWrites ++ idtWrites ++ pageTableWrites ++ regionWrites params.memRegions ++
        cmdlineWrites params.cmdline) (TB_CMDLINE_ADDR + i) = some b := by
      rw [overlay_append, look_overlay_cmdline,
        Piece.look_add (p := (TB_CMDLINE_ADDR, params.cmdline ++ [0])), hb, Option.some_or]
    exact byte_below_info h hshow (Nat.le_trans (by decide) (Nat.le_add_right _ i))

theorem readSlice_regions (hfits : params.Fits) (hne : params.memRegions ≠ [])
    (h : VmMemory.Laid m (bootWrites params) m') :
    V.readSlice m' TB_MEM_REGIONS_ADDR (params.memRegions.length * TB_MEM_REGION_SIZE) =
      .ok ((handedRegions params.memRegions).flatMap TbMemRegion.toBytes) := by
  have hlen := length_handedRegions params.memRegions
  have hin := lowmem_inside h
  have hregs := hfits.regions
  have hpos := List.length_pos_iff.mpr hne
  rw [← hlen]
  refine VmMemory.readSlice_of_byte (List.ne_nil_of_length_pos ?_) ?_ fun i b hb => ?_
  · rw [hlen]
    exact Nat.mul_pos hpos (by decide)
  · rw [hlen]
    exact Nat.le_trans hregs (Nat.le_trans (by decide) hin)
  · have hi := (List.getElem?_eq_some_iff.mp hb).1
    rw [hlen] at hi
    have hcmd : overlay (cmdlineWrites params.cmdline) (TB_MEM_REGIONS_ADDR + i) = none := by
      rw [look_overlay_cmdline, Piece.look_eq_none]
      exact .inl (by dsimp only; omega)
    have hshow : overlay (gdtWrites ++ idtWrites ++ pageTableWrites ++ regionWrites params.memRegions ++
        cmdlineWrites params.cmdline) (TB_MEM_REGIONS_ADDR + i) = some b := by
      rw [overlay_append, hcmd, Option.none_or, overlay_append, look_overlay_regions,
        Piece.look_add (p := (TB_MEM_REGIONS_ADDR, _)), hb, Option.some_or]
    exact byte_below_info h hshow (Nat.le_add_right _ _)

end Handoff

/-! ## The segments under the structures -/

/-- Every address of a segment holds the byte of the last segment that reaches it. -/
def SegmentsHeld (image : List UInt8) (m : V.GuestMemoryMmap) : Prop :=
  ∀ phdrs, parsePhdrs image = .ok phdrs → ∀ a b, overlay (segments image phdrs) a = some b → V.byte m a = b

/-- Where a segment and a boot structure meet, they hold the same byte. -/
def NoConflict (image : List UInt8) (regions : List MemRegion) (cmdline : List UInt8) : Prop :=
  ∀ phdrs entry, parsePhdrs image = .ok phdrs → findTbEntry image phdrs = .ok (some entry) →
    ∀ a b b', overlay (segments image phdrs) a = some b →
      overlay (bootWrites ⟨entry, regions, cmdline⟩) a = some b' → b = b'

/-- What a machine that is about to start was made of. -/
theorem newOn_cases {ram : GuestRam V} {image cmdline : List UInt8} {vm : ReadyVmm V}
    (h : ReadyVmm.newOn V ram image cmdline = .ok vm) : ∃ phdrs m,
      parsePhdrs image = .ok phdrs ∧ findTbEntry image phdrs = .ok (some vm.rip) ∧
      VmMemory.Laid ram.inner (segments image phdrs) m ∧ vm.rdi = TB_BOOT_INFO_ADDR ∧
      BootParams.Fits ⟨vm.rip, ram.regions, cmdline⟩ ∧
      VmMemory.Laid m (bootWrites ⟨vm.rip, ram.regions, cmdline⟩) vm.mem := by
  obtain ⟨⟨loaded, m⟩, hload, h⟩ := bind_eq_ok.mp h
  obtain ⟨⟨addr, m'⟩, hboot, h⟩ := bind_eq_ok.mp h
  cases h
  obtain ⟨phdrs, hparse, hentry, hlaid⟩ := laid_loadKernel (ok_of_mapError hload)
  obtain ⟨haddr, hfits, hlaid'⟩ := laid_writeSystemMemory hboot
  exact ⟨phdrs, m, hparse, hentry, hlaid, haddr, hfits, hlaid'⟩

theorem handoff_readable {ram : GuestRam V} {image cmdline : List UInt8} {vm : ReadyVmm V}
    (h : ReadyVmm.newOn V ram image cmdline = .ok vm) : HandoffReadable ram.regions cmdline vm := by
  obtain ⟨phdrs, m, -, -, -, hrdi, hfits, hlaid⟩ := newOn_cases h
  have hregs := hfits.regions
  have hcmd := hfits.cmdline
  simp only [TB_MEM_REGIONS_ADDR, TB_MEM_REGION_SIZE, TB_CMDLINE_ADDR, TB_LOWMEM_LIMIT, PML4_START] at hregs hcmd
  have hptr : (BitVec.ofNat 64 TB_MEM_REGIONS_ADDR).toNat = TB_MEM_REGIONS_ADDR := by decide
  have hcptr : (BitVec.ofNat 64 TB_CMDLINE_ADDR).toNat = TB_CMDLINE_ADDR := by decide
  have hcount : (BitVec.ofNat 64 ram.regions.length).toNat = ram.regions.length := by
    rw [BitVec.toNat_ofNat]
    exact Nat.mod_eq_of_lt (by omega)
  have hclen : (BitVec.ofNat 64 cmdline.length).toNat = cmdline.length := by
    rw [BitVec.toNat_ofNat]
    exact Nat.mod_eq_of_lt (by omega)
  have hread := TbBootInfo.readValidated_new 0 (.ofNat 64 TB_MEM_REGIONS_ADDR) (.ofNat 64 ram.regions.length)
    (.ofNat 64 TB_CMDLINE_ADDR) (.ofNat 64 cmdline.length) vm.rip []
  have hregions := regionsFromBytes_toBytes (handedRegions ram.regions) []
  rw [List.append_nil] at hread hregions
  rw [length_handed] at hregions
  refine ⟨_, _, hrdi ▸ readSlice_bootInfo hlaid, by rw [bootInfoBytes_eq]; exact hread, rfl, hcount,
    fun hne => ⟨(handedRegions ram.regions).flatMap TbMemRegion.toBytes, ?_, ?_⟩, hclen, ?_⟩
  · simp only [TbBootInfo.new, hptr, hcount]
    have harray := readSlice_regions hfits hne hlaid
    exact harray
  · simp only [TbBootInfo.new, hcount]
    exact hregions
  · simp only [TbBootInfo.new, hcptr, hclen]
    have hline := readSlice_cmdline hfits hlaid
    exact hline

/-- The structures lie over the segments, so these show through exactly where they agree. -/
theorem segmentsHeld_iff {ram : GuestRam V} {image cmdline : List UInt8} {vm : ReadyVmm V}
    (h : ReadyVmm.newOn V ram image cmdline = .ok vm) :
    SegmentsHeld image vm.mem ↔ NoConflict image ram.regions cmdline := by
  obtain ⟨phdrs, m, hparse, hentry, hlaid, -, -, hlaid'⟩ := newOn_cases h
  have hall := hlaid.trans hlaid'
  constructor
  · intro hheld phdrs' entry' hparse' hentry' a b b' hb hb'
    cases hparse.symm.trans hparse'
    cases hentry.symm.trans hentry'
    have hbyte := hheld phdrs hparse a b hb
    rw [hall.byte, overlay_append, hb', Option.some_or, Option.getD_some] at hbyte
    exact hbyte.symm
  · intro hno phdrs' hparse' a b hb
    cases hparse.symm.trans hparse'
    rw [hall.byte, overlay_append, hb]
    cases hb' : overlay (bootWrites ⟨vm.rip, ram.regions, cmdline⟩) a with
    | none => rfl
    | some b' => exact (hno phdrs vm.rip hparse hentry a b b' hb hb').symm

/-- The structures stand below `0xc000`. -/
theorem bootWrites_low {params : BootParams} (hfits : params.Fits) :
    ∀ p ∈ bootWrites params, p.1 + p.2.length ≤ 0xc000 := by
  have hregs := hfits.regions
  have hcmd := hfits.cmdline
  simp only [TB_MEM_REGIONS_ADDR, TB_MEM_REGION_SIZE, TB_CMDLINE_ADDR, TB_LOWMEM_LIMIT, PML4_START] at hregs hcmd
  intro p hp
  simp only [bootWrites, List.mem_append] at hp
  rcases hp with ((((hp | hp) | hp) | hp) | hp) | hp
  · revert p hp
    decide
  · revert p hp
    decide
  · rcases List.mem_cons.mp hp with rfl | hp
    · decide
    · rcases List.mem_cons.mp hp with rfl | hp
      · decide
      · obtain ⟨i, hi, rfl⟩ := List.mem_map.mp hp
        have := List.mem_range.mp hi
        simp only [length_le, PDE_START]
        omega
  · obtain ⟨⟨bytes, i⟩, hi, rfl⟩ := List.mem_map.mp hp
    obtain ⟨-, hlt, hbytes⟩ := List.mem_zipIdx hi
    obtain ⟨r, -, hr⟩ := List.mem_map.mp (hbytes ▸ List.getElem_mem _)
    have hlen : bytes.length = 24 := by
      rw [← hr, serializeMemRegion_eq, TbMemRegion.length_toBytes]
      rfl
    simp only [List.length_map, Nat.zero_add] at hlt
    simp only [hlen, TB_MEM_REGIONS_ADDR, TB_MEM_REGION_SIZE]
    omega
  · rcases List.mem_pair.mp hp with rfl | rfl
    · simp only [TB_CMDLINE_ADDR]
      omega
    · simp only [TB_CMDLINE_ADDR, List.length_singleton]
      omega
  · rw [List.mem_singleton.mp hp, length_bootInfoBytes]
    exact (by decide : TB_BOOT_INFO_ADDR + TB_BOOT_INFO_SIZE ≤ 0xc000)

/-- An image above the structures meets none of them. -/
theorem noConflict_of_high {image cmdline : List UInt8} {regions : List MemRegion}
    (hfits : ∀ entry, BootParams.Fits ⟨entry, regions, cmdline⟩)
    (hhigh : ∀ phdrs, parsePhdrs image = .ok phdrs → ∀ p ∈ segments image phdrs, 0xc000 ≤ p.1) :
    NoConflict image regions cmdline := by
  intro phdrs entry hparse _ a b b' hb hb'
  exfalso
  rcases Nat.lt_or_ge a 0xc000 with hlow | hge
  · have hnone : overlay (segments image phdrs) a = none :=
      overlay_eq_none.mpr fun p hp => Piece.look_eq_none.mpr (.inl (Nat.lt_of_lt_of_le hlow (hhigh _ hparse p hp)))
    rw [hnone] at hb
    cases hb
  · have hnone : overlay (bootWrites ⟨entry, regions, cmdline⟩) a = none :=
      overlay_eq_none.mpr fun p hp =>
        Piece.look_eq_none.mpr (.inr (Nat.le_trans (bootWrites_low (hfits entry) p hp) hge))
    rw [hnone] at hb'
    cases hb'

theorem newOn_of_new {memBytes : BitVec 64} {image cmdline : List UInt8} {vm : ReadyVmm V}
    (h : ReadyVmm.new V memBytes image cmdline = .ok vm) :
    ∃ inner, ReadyVmm.newOn V ⟨inner, [⟨0, memBytes, .ram⟩]⟩ image cmdline = .ok vm := by
  obtain ⟨ram, hram, h⟩ := bind_eq_ok.mp h
  obtain ⟨inner, -, hram⟩ := bind_eq_ok.mp (ok_of_mapError hram)
  cases hram
  exact ⟨inner, h⟩

/-- When the machine is started, what the kernel is handed can be read; its segments still stand
in memory if and only if none of them holds another byte where a boot structure was put.  So for
any memory and memory map, and so for those `Vmm::new` makes. -/
theorem boot_image_intact_iff (V : VmMemory) (image cmdline : List UInt8) :
    (∀ (ram : GuestRam V) (vm : ReadyVmm V), ReadyVmm.newOn V ram image cmdline = .ok vm →
      (SegmentsHeld image vm.mem ∧ HandoffReadable ram.regions cmdline vm ↔
        NoConflict image ram.regions cmdline)) ∧
    ∀ (memBytes : BitVec 64) (vm : ReadyVmm V), ReadyVmm.new V memBytes image cmdline = .ok vm →
      (SegmentsHeld image vm.mem ∧ HandoffReadable [⟨0, memBytes, .ram⟩] cmdline vm ↔
        NoConflict image [⟨0, memBytes, .ram⟩] cmdline) := by
  have hon : ∀ (ram : GuestRam V) (vm : ReadyVmm V), ReadyVmm.newOn V ram image cmdline = .ok vm →
      (SegmentsHeld image vm.mem ∧ HandoffReadable ram.regions cmdline vm ↔
        NoConflict image ram.regions cmdline) := by
    intro ram vm h
    rw [segmentsHeld_iff h]
    exact and_iff_left (handoff_readable h)
  refine ⟨hon, fun memBytes vm h => ?_⟩
  obtain ⟨inner, h⟩ := newOn_of_new h
  exact hon _ vm h

/-! ## Two images -/

/-- An image of one note and one segment of four file bytes and four zeros, loaded at `paddr`. -/
def sampleImage (paddr : Nat) : List UInt8 :=
  [0x7f, 0x45, 0x4c, 0x46, 2, 1] ++ List.replicate 12 0 ++ le 2 62 ++ List.replicate 12 0 ++ le 8 64 ++
    List.replicate 14 0 ++ le 2 56 ++ le 2 2 ++ List.replicate 6 0 ++
  (le 4 1 ++ le 4 0 ++ le 8 204 ++ le 8 paddr ++ le 8 paddr ++ le 8 4 ++ le 8 8 ++ le 8 0) ++
  (le 4 4 ++ le 4 0 ++ le 8 176 ++ le 8 0 ++ le 8 0 ++ le 8 28 ++ le 8 28 ++ le 8 0) ++
  shippedNote.encode ++ [1, 2, 3, 4]

theorem parsePhdrs_sampleImage : ∀ paddr ∈ [0x6000, 0x100000], parsePhdrs (sampleImage paddr) =
    .ok [⟨PT_LOAD, 204, paddr, 4, 8⟩, ⟨PT_NOTE, 176, 0, 28, 28⟩] := by decide +kernel

theorem isOk_sampleImage : ∀ paddr ∈ [0x6000, 0x100000],
    (ReadyVmm.new flat 0x1000000 (sampleImage paddr) []).isOk = true := by decide +kernel

theorem ok_of_isOk {ε α : Type} {x : Except ε α} (h : x.isOk = true) : ∃ a, x = .ok a := by
  cases x with
  | error e => cases h
  | ok a => exact ⟨a, rfl⟩

/-- Loaded at 1 MiB, as the shipped kernel is, the image stays as it was loaded. -/
theorem boot_image_intact_at_mib : ∃ vm, ReadyVmm.new flat 0x1000000 (sampleImage 0x100000) [] = .ok vm ∧
    SegmentsHeld (sampleImage 0x100000) vm.mem ∧ HandoffReadable [⟨0, 0x1000000, .ram⟩] [] vm := by
  obtain ⟨vm, hvm⟩ := ok_of_isOk (isOk_sampleImage 0x100000 (by simp))
  refine ⟨vm, hvm, ((boot_image_intact_iff flat _ _).2 _ vm hvm).mpr (noConflict_of_high ?_ ?_)⟩
  · exact fun entry => ⟨by simp [TB_MEM_REGIONS_ADDR, TB_MEM_REGION_SIZE, TB_CMDLINE_ADDR],
      by simp [TB_CMDLINE_ADDR, TB_LOWMEM_LIMIT, PML4_START]⟩
  · intro phdrs hparse p hp
    cases (parsePhdrs_sampleImage 0x100000 (by simp)).symm.trans hparse
    rw [List.mem_singleton.mp hp]
    decide

/-- Loaded where the boot info goes, its first byte is lost. -/
theorem low_image_overwritten : ∃ vm, ReadyVmm.new flat 0x1000000 (sampleImage 0x6000) [] = .ok vm ∧
    ¬SegmentsHeld (sampleImage 0x6000) vm.mem := by
  obtain ⟨vm, hvm⟩ := ok_of_isOk (isOk_sampleImage 0x6000 (by simp))
  refine ⟨vm, hvm, ?_⟩
  obtain ⟨inner, hon⟩ := newOn_of_new hvm
  rw [segmentsHeld_iff hon]
  show ¬NoConflict (sampleImage 0x6000) [⟨0, 0x1000000, .ram⟩] []
  intro hno
  have hconflict := hno _ 0x100000 (parsePhdrs_sampleImage 0x6000 (by simp)) (by decide +kernel) 0x6000 1 0
    (by decide +kernel) (by decide +kernel)
  exact absurd hconflict (by decide)

end Yuva.Vmm
