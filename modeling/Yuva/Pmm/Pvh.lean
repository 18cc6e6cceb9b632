/-
# `Yuva.Pmm.Pvh` — what the PVH reader reserves

`tb-hal/src/arch/x86_64/pmm.rs`: `collect_pvh` reads a start-info block, its module
list and its memory map out of physical memory, byte by byte, and records usable and
reserved spans.  Every read is guarded to the identity window; the walks are bounded by
64 modules and 128 map entries, and the map walk stops at the first entry it cannot read.

The purpose is stated over the block itself (`Protected`): which bytes belong to a map
entry that is no RAM, to a module, to the command line, or to the three structures.
Compared with it the reader leaves out what its bounds cut off (`Skipped`): modules past
the 64th or with an unreadable list entry, map entries past the 128th or from the first
unreadable one on, and the command line past its first page.

**Proved here.**  No seeded frame meets a protected byte exactly when no frame that the
walked entries leave free meets a skipped one (`pvh_protected_iff`).
-/
import Yuva.Pmm.State
import Yuva.Lib.Bytes

namespace Yuva.Pmm

open Yuva.Machine Yuva.Bytes

/-- Physical memory, as the boot reader sees it. -/
abbrev Ram := Nat → UInt8

def ID_LO : Nat := 0x8
def ID_HI : Nat := 0x40000000
def PVH_MAGIC : Nat := 0x336EC578
def MEMMAP_TYPE_RAM : Nat := 1

/-- The `n` bytes at `pa`, as a little-endian word. -/
def wordAt (ram : Ram) (pa n : Nat) : Nat := unle ((List.range n).map fun i => ram (pa + i))

/-- A guarded read: the whole span must lie in the identity window. -/
def readBytes (ram : Ram) (pa n : Nat) : Option (List UInt8) :=
  if pa < ID_LO then none
  else if pa + n ≤ ID_HI then some ((List.range n).map fun i => ram (pa + i))
  else none

def readU32 (ram : Ram) (pa : Nat) : Option Nat := (readBytes ram pa 4).map unle

def readU64 (ram : Ram) (pa : Nat) : Option Nat := (readBytes ram pa 8).map unle

def pushUsableClamped (sink : RegionSink) (base len : Nat) : RegionSink :=
  let stop := min (satU 64 (base + len)) ID_HI
  if stop > base then sink.pushUsable (.ofNat 64 base) (.ofNat 64 (stop - base)) else sink

def reserveSpan (sink : RegionSink) (base len : Nat) : RegionSink :=
  if len = 0 then sink
  else
    let stop := min (satU 64 (base + len)) ID_HI
    if stop > base then sink.pushReserved (.ofNat 64 base) (.ofNat 64 (stop - base)) else sink

/-- One conservative page for the command line. -/
def reserveCmdline (ram : Ram) (bi : Nat) (sink : RegionSink) : RegionSink :=
  match readU64 ram (bi + 24) with
  | some cmdline => if cmdline ≠ 0 then reserveSpan sink cmdline FRAME else sink
  | none => sink

/-- The `(paddr, size)` of a module list entry. -/
def moduleAt (ram : Ram) (modlist m : Nat) : Option (Nat × Nat) :=
  let ment := satU 64 (modlist + satU 64 (m * 32))
  match readU64 ram ment, readU64 ram (satU 64 (ment + 8)) with
  | some mpaddr, some msize => some (mpaddr, msize)
  | _, _ => none

def reserveModule (ram : Ram) (modlist : Nat) (sink : RegionSink) (m : Nat) : RegionSink :=
  match moduleAt ram modlist m with
  | some (mpaddr, msize) => reserveSpan sink mpaddr msize
  | none => sink

/-- The module list and the modules it names, the first 64 of them. -/
def reserveModules (ram : Ram) (bi : Nat) (sink : RegionSink) : RegionSink :=
  match readU32 ram (bi + 12) with
  | none => sink
  | some nrModules =>
      if nrModules = 0 then sink
      else
        match readU64 ram (bi + 16) with
        | none => sink
        | some modlist =>
            let sink := reserveSpan sink modlist (satU 64 (nrModules * 32))
            let nmods := if nrModules > 64 then 64 else nrModules
            (List.range nmods).foldl (reserveModule ram modlist) sink

/-- An entry of the memory map. -/
structure Entry where
  addr : Nat
  size : Nat
  etype : Nat
  deriving DecidableEq, Repr

def entryAt (ram : Ram) (memmap i : Nat) : Option Entry :=
  let e := satU 64 (memmap + satU 64 (i * 24))
  match readU64 ram e with
  | none => none
  | some addr =>
      match readU64 ram (e + 8) with
      | none => none
      | some size =>
          match readU32 ram (e + 16) with
          | none => none
          | some etype => some ⟨addr, size, etype⟩

def recordEntry (sink : RegionSink) (e : Entry) : RegionSink :=
  if e.etype = MEMMAP_TYPE_RAM then pushUsableClamped sink e.addr e.size else reserveSpan sink e.addr e.size

/-- The walk over the map, which stops where it cannot read. -/
def walkMemmap (ram : Ram) (memmap : Nat) : List Nat → RegionSink → RegionSink
  | [], sink => sink
  | i :: is, sink =>
      match entryAt ram memmap i with
      | none => sink
      | some e => walkMemmap ram memmap is (recordEntry sink e)

def collectMemmap (ram : Ram) (bi : Nat) (sink : RegionSink) : RegionSink :=
  match readU64 ram (bi + 40) with
  | none => sink
  | some memmap =>
      match readU32 ram (bi + 48) with
      | none => sink
      | some entries =>
          if memmap = 0 ∨ entries = 0 then sink
          else
            let sink := reserveSpan sink memmap (satU 64 (entries * 24))
            let n := if entries > 128 then 128 else entries
            walkMemmap ram memmap (List.range n) sink

def collectPvh (ram : Ram) (bi : Nat) (sink : RegionSink) : RegionSink :=
  match readU32 ram bi with
  | none => sink
  | some m =>
      if m ≠ PVH_MAGIC then sink
      else
        let version := (readU32 ram (bi + 4)).getD 0
        let sink := reserveSpan sink bi 56
        let sink := reserveCmdline ram bi sink
        let sink := reserveModules ram bi sink
        if version < 1 then sink else collectMemmap ram bi sink

/-- `pmm_collect_regions` on a PVH boot: the first MiB, then the block. -/
def collectRegions (ram : Ram) (bi : Nat) : RegionSink :=
  collectPvh ram bi (RegionSink.new.pushReserved 0 0x100000)

/-- The allocator a PVH boot starts with. -/
def pvhBoot (ram : Ram) (bi : Nat) (image : PhysRange) (mem : Mem) : PmmState :=
  (PmmState.new.init mem (collectRegions ram bi) image).1

/-! ## What the block says -/

def nrModules (ram : Ram) (bi : Nat) : Nat := wordAt ram (bi + 12) 4
def modlist (ram : Ram) (bi : Nat) : Nat := wordAt ram (bi + 16) 8
def cmdline (ram : Ram) (bi : Nat) : Nat := wordAt ram (bi + 24) 8
def memmap (ram : Ram) (bi : Nat) : Nat := wordAt ram (bi + 40) 8
def entries (ram : Ram) (bi : Nat) : Nat := wordAt ram (bi + 48) 4

/-- The `i`-th entry of the map, read where it lies. -/
def entry (ram : Ram) (bi i : Nat) : Entry :=
  ⟨wordAt ram (memmap ram bi + 24 * i) 8, wordAt ram (memmap ram bi + 24 * i + 8) 8,
    wordAt ram (memmap ram bi + 24 * i + 16) 4⟩

/-- The `m`-th module: where it starts and how long it is. -/
def bootModule (ram : Ram) (bi m : Nat) : Nat × Nat :=
  (wordAt ram (modlist ram bi + 32 * m) 8, wordAt ram (modlist ram bi + 32 * m + 8) 8)

def InSpan (x base len : Nat) : Prop := base ≤ x ∧ x < base + len

/-- A byte of the command line: no terminator lies before it. -/
def InCmdline (ram : Ram) (bi x : Nat) : Prop :=
  cmdline ram bi ≠ 0 ∧ cmdline ram bi ≤ x ∧ ∀ y, cmdline ram bi ≤ y → y < x → ram y ≠ 0

/-- A byte of an entry of the map that is not RAM; entries lie in the address space. -/
def InHole (ram : Ram) (bi i x : Nat) : Prop :=
  i < entries ram bi ∧ memmap ram bi + 24 * (i + 1) ≤ 2 ^ 64 ∧ (entry ram bi i).etype ≠ MEMMAP_TYPE_RAM ∧
    InSpan x (entry ram bi i).addr (entry ram bi i).size

def InModule (ram : Ram) (bi m x : Nat) : Prop :=
  m < nrModules ram bi ∧ modlist ram bi + 32 * (m + 1) ≤ 2 ^ 64 ∧
    InSpan x (bootModule ram bi m).1 (bootModule ram bi m).2

/-- The bytes a PVH boot must keep out of the allocator. -/
inductive Protected (ram : Ram) (bi x : Nat) : Prop
  | entry (i : Nat) : InHole ram bi i x → Protected ram bi x
  | bootModule (m : Nat) : InModule ram bi m x → Protected ram bi x
  | cmdline : InCmdline ram bi x → Protected ram bi x
  | startInfo : InSpan x bi 56 → Protected ram bi x
  | memmap : InSpan x (memmap ram bi) (24 * entries ram bi) → Protected ram bi x
  | modlist : InSpan x (modlist ram bi) (32 * nrModules ram bi) → Protected ram bi x

/-- The map walk gets to the entry. -/
def EntryWalked (ram : Ram) (bi i : Nat) : Prop :=
  i < 128 ∧ ID_LO ≤ memmap ram bi ∧ memmap ram bi + 24 * i + 20 ≤ ID_HI

/-- The module walk reads the entry. -/
def ModuleWalked (ram : Ram) (bi m : Nat) : Prop :=
  m < 64 ∧ ID_LO ≤ modlist ram bi + 32 * m ∧ modlist ram bi + 32 * m + 16 ≤ ID_HI

/-- The protected bytes the bounds of the walks cut off. -/
inductive Skipped (ram : Ram) (bi x : Nat) : Prop
  | entry (i : Nat) : InHole ram bi i x → ¬ EntryWalked ram bi i → Skipped ram bi x
  | bootModule (m : Nat) : InModule ram bi m x → ¬ ModuleWalked ram bi m → Skipped ram bi x
  | cmdline : InCmdline ram bi x → cmdline ram bi + FRAME ≤ x → Skipped ram bi x

theorem Skipped.protected {ram : Ram} {bi x : Nat} (h : Skipped ram bi x) : Protected ram bi x := by
  cases h with
  | entry i hole _ => exact .entry i hole
  | bootModule m hmod _ => exact .bootModule m hmod
  | cmdline hcmd _ => exact .cmdline hcmd

/-! ## Reading in the window -/

theorem wordAt_lt (ram : Ram) (pa n : Nat) : wordAt ram pa n < 256 ^ n := by
  have h := unle_lt ((List.range n).map fun i => ram (pa + i))
  rwa [List.length_map, List.length_range] at h

theorem readBytes_eq {ram : Ram} {pa n : Nat} (hlo : ID_LO ≤ pa) (hhi : pa + n ≤ ID_HI) :
    readBytes ram pa n = some ((List.range n).map fun i => ram (pa + i)) := by
  rw [readBytes, if_neg (Nat.not_lt.mpr hlo), if_pos hhi]

theorem readU32_eq {ram : Ram} {pa : Nat} (hlo : ID_LO ≤ pa) (hhi : pa + 4 ≤ ID_HI) :
    readU32 ram pa = some (wordAt ram pa 4) := by
  rw [readU32, readBytes_eq hlo hhi]
  rfl

theorem readU64_eq {ram : Ram} {pa : Nat} (hlo : ID_LO ≤ pa) (hhi : pa + 8 ≤ ID_HI) :
    readU64 ram pa = some (wordAt ram pa 8) := by
  rw [readU64, readBytes_eq hlo hhi]
  rfl

theorem readBytes_some {ram : Ram} {pa n : Nat} {bs : List UInt8} (h : readBytes ram pa n = some bs) :
    ID_LO ≤ pa ∧ pa + n ≤ ID_HI := by
  rw [readBytes] at h
  split at h
  · cases h
  · next hlo =>
      split at h
      · next hhi => exact ⟨Nat.le_of_not_lt hlo, hhi⟩
      · cases h

theorem readU64_some {ram : Ram} {pa v : Nat} (h : readU64 ram pa = some v) :
    (ID_LO ≤ pa ∧ pa + 8 ≤ ID_HI) ∧ v = wordAt ram pa 8 := by
  have hwin : ID_LO ≤ pa ∧ pa + 8 ≤ ID_HI := by
    rw [readU64, Option.map_eq_some_iff] at h
    obtain ⟨bs, hbs, -⟩ := h
    exact readBytes_some hbs
  rw [readU64_eq hwin.1 hwin.2, Option.some.injEq] at h
  exact ⟨hwin, h.symm⟩

theorem readU32_some {ram : Ram} {pa v : Nat} (h : readU32 ram pa = some v) :
    (ID_LO ≤ pa ∧ pa + 4 ≤ ID_HI) ∧ v = wordAt ram pa 4 := by
  have hwin : ID_LO ≤ pa ∧ pa + 4 ≤ ID_HI := by
    rw [readU32, Option.map_eq_some_iff] at h
    obtain ⟨bs, hbs, -⟩ := h
    exact readBytes_some hbs
  rw [readU32_eq hwin.1 hwin.2, Option.some.injEq] at h
  exact ⟨hwin, h.symm⟩

/-! ## What the tables record -/

/-- The part of a span below the top of the window, when there is one. -/
def spanOf (base len : Nat) : List PhysRange :=
  if min (satU 64 (base + len)) ID_HI > base then
    [⟨.ofNat 64 base, .ofNat 64 (min (satU 64 (base + len)) ID_HI - base)⟩]
  else []

theorem mem_spanOf {base len : Nat} {r : PhysRange} (h : r ∈ spanOf base len) :
    r.base.toNat = base ∧ base < ID_HI ∧ r.len ≠ 0 ∧ r.base.toNat + r.len.toNat = min (base + len) ID_HI := by
  rw [spanOf] at h
  split at h
  · next hgt =>
      obtain rfl := List.mem_singleton.mp h
      have hhi : ID_HI < 2 ^ 64 := by decide
      have hmin : min (satU 64 (base + len)) ID_HI = min (base + len) ID_HI := by
        rw [satU]
        omega
      rw [hmin] at hgt ⊢
      have hbase : (BitVec.ofNat 64 base).toNat = base := Nat.mod_eq_of_lt (by omega)
      have hlen : (BitVec.ofNat 64 (min (base + len) ID_HI - base)).toNat = min (base + len) ID_HI - base :=
        Nat.mod_eq_of_lt (by omega)
      refine ⟨hbase, by omega, ?_, by rw [hbase, hlen]; omega⟩
      intro hzero
      have hcast := congrArg BitVec.toNat hzero
      rw [hlen] at hcast
      change _ = 0 at hcast
      omega
  · cases h

/-- A byte of the span below the top of the window is in the part that is kept. -/
theorem exists_spanOf {x base len : Nat} (hx : InSpan x base len) (hlt : x < ID_HI) :
    ∃ r ∈ spanOf base len, r.base.toNat ≤ x ∧ x < r.base.toNat + r.len.toNat := by
  obtain ⟨hle, hlen⟩ := hx
  have hhi : ID_HI < 2 ^ 64 := by decide
  have hgt : min (satU 64 (base + len)) ID_HI > base := by
    rw [satU]
    omega
  have hmem : (⟨.ofNat 64 base, .ofNat 64 (min (satU 64 (base + len)) ID_HI - base)⟩ : PhysRange) ∈
      spanOf base len := by
    rw [spanOf, if_pos hgt]
    exact List.mem_singleton_self _
  obtain ⟨hbase, -, -, hend⟩ := mem_spanOf hmem
  exact ⟨_, hmem, Nat.le_trans (Nat.le_of_eq hbase) hle, by omega⟩

theorem take_take_append {α : Type*} (n : Nat) (xs ys : List α) :
    (xs.take n ++ ys).take n = (xs ++ ys).take n := by
  rcases Nat.le_total xs.length n with h | h
  · rw [List.take_of_length_le h]
  · have hlen : n ≤ (xs.take n).length := by rw [List.length_take, Nat.min_eq_left h]
    rw [List.take_append_of_le_length hlen, List.take_append_of_le_length h, List.take_take, Nat.min_self]

/-- `t` is `s` with the ranges `us` pushed as usable and `rs` as reserved, interleaved in some order. -/
structure Extends (s : RegionSink) (us rs : List PhysRange) (t : RegionSink) : Prop where
  usable : t.usable = (s.usable ++ us).take MAX_RANGES
  fits : s.reserved.length + rs.length ≤ MAX_RESV → t.reserved = s.reserved ++ rs ∧ t.overflow = s.overflow
  full : MAX_RESV < s.reserved.length + rs.length → t.overflow = true
  stays : s.overflow = true → t.overflow = true

namespace Extends

theorem refl (s : RegionSink) : Extends s [] [] s where
  usable := by rw [List.append_nil, List.take_of_length_le s.usable_le]
  fits _ := ⟨(List.append_nil _).symm, rfl⟩
  full h := absurd s.reserved_le (Nat.not_le.mpr h)
  stays h := h

theorem trans {s t u : RegionSink} {us us' rs rs' : List PhysRange} (h : Extends s us rs t)
    (h' : Extends t us' rs' u) : Extends s (us ++ us') (rs ++ rs') u where
  usable := by
    rw [h'.usable, h.usable, take_take_append, List.append_assoc]
  fits hle := by
    rw [List.length_append] at hle
    obtain ⟨hres, hov⟩ := h.fits (by omega)
    obtain ⟨hres', hov'⟩ := h'.fits (by rw [hres, List.length_append]; omega)
    exact ⟨by rw [hres', hres, List.append_assoc], hov'.trans hov⟩
  full hlt := by
    rw [List.length_append] at hlt
    by_cases hfull : MAX_RESV < s.reserved.length + rs.length
    · exact h'.stays (h.full hfull)
    · obtain ⟨hres, -⟩ := h.fits (Nat.le_of_not_lt hfull)
      exact h'.full (by rw [hres, List.length_append]; omega)
  stays hov := h'.stays (h.stays hov)

theorem pushReserved (s : RegionSink) {r : PhysRange} (hlen : r.len ≠ 0) :
    Extends s [] [r] (s.pushReserved r.base r.len) := by
  rw [RegionSink.pushReserved, dif_neg hlen]
  split
  · next hroom =>
      refine ⟨by rw [List.append_nil, List.take_of_length_le s.usable_le], fun _ => ⟨rfl, rfl⟩, ?_, fun h => h⟩
      intro hfull
      rw [List.length_singleton] at hfull
      omega
  · next hroom =>
      refine ⟨by rw [List.append_nil, List.take_of_length_le s.usable_le], ?_, fun _ => rfl, fun _ => rfl⟩
      intro hfits
      rw [List.length_singleton] at hfits
      omega

theorem pushUsable (s : RegionSink) {r : PhysRange} (hlen : r.len ≠ 0) :
    Extends s [r] [] (s.pushUsable r.base r.len) := by
  have hnil : ∀ t : RegionSink, t.reserved = s.reserved → t.overflow = s.overflow →
      t.usable = (s.usable ++ [r]).take MAX_RANGES → Extends s [r] [] t := by
    intro t hres hov husable
    refine ⟨husable, fun _ => ⟨hres.trans (List.append_nil _).symm, hov⟩, ?_, fun h => hov.trans h⟩
    intro hfull
    exact absurd s.reserved_le (Nat.not_le.mpr hfull)
  rw [RegionSink.pushUsable, dif_neg hlen]
  split
  · next hroom => exact hnil _ rfl rfl (List.take_of_length_le (length_snoc_le hroom)).symm
  · next hroom =>
      refine hnil s rfl rfl ?_
      rw [List.take_append_of_le_length (Nat.le_of_not_lt hroom), List.take_of_length_le s.usable_le]

theorem reserveSpan (s : RegionSink) (base len : Nat) : Extends s [] (spanOf base len) (reserveSpan s base len) := by
  rw [Pmm.reserveSpan]
  split
  · next hzero =>
      have hnil : spanOf base len = [] := by
        rw [spanOf, if_neg]
        rw [hzero, satU]
        omega
      rw [hnil]
      exact refl s
  · dsimp only
    split
    · next hgt =>
        have hspan : spanOf base len = [⟨.ofNat 64 base, .ofNat 64 (min (satU 64 (base + len)) ID_HI - base)⟩] := by
          rw [spanOf, if_pos hgt]
        rw [hspan]
        exact pushReserved s (mem_spanOf (hspan ▸ List.mem_singleton_self _)).2.2.1
    · next hle =>
        rw [spanOf, if_neg hle]
        exact refl s

theorem pushUsableClamped (s : RegionSink) (base len : Nat) :
    Extends s (spanOf base len) [] (pushUsableClamped s base len) := by
  rw [Pmm.pushUsableClamped]
  split
  · next hgt =>
      have hspan : spanOf base len = [⟨.ofNat 64 base, .ofNat 64 (min (satU 64 (base + len)) ID_HI - base)⟩] := by
        rw [spanOf, if_pos hgt]
      rw [hspan]
      exact pushUsable s (mem_spanOf (hspan ▸ List.mem_singleton_self _)).2.2.1
  · next hle =>
      rw [spanOf, if_neg hle]
      exact refl s

end Extends

/-- The entries the map walk reads. -/
def entriesRead (ram : Ram) (memmap : Nat) : List Nat → List Entry
  | [] => []
  | i :: is =>
      match entryAt ram memmap i with
      | none => []
      | some e => e :: entriesRead ram memmap is

def ramSpan (e : Entry) : List PhysRange := if e.etype = MEMMAP_TYPE_RAM then spanOf e.addr e.size else []

def holeSpan (e : Entry) : List PhysRange := if e.etype = MEMMAP_TYPE_RAM then [] else spanOf e.addr e.size

theorem Extends.walkMemmap (ram : Ram) (memmap : Nat) (is : List Nat) (s : RegionSink) :
    Extends s ((entriesRead ram memmap is).flatMap ramSpan) ((entriesRead ram memmap is).flatMap holeSpan)
      (walkMemmap ram memmap is s) := by
  induction is generalizing s with
  | nil => exact Extends.refl s
  | cons i is ih =>
      rw [Pmm.walkMemmap, entriesRead]
      cases entryAt ram memmap i with
      | none => exact Extends.refl s
      | some e =>
          rw [List.flatMap_cons, List.flatMap_cons]
          refine Extends.trans ?_ (ih (recordEntry s e))
          rw [recordEntry, ramSpan, holeSpan]
          split
          · exact Extends.pushUsableClamped s e.addr e.size
          · exact Extends.reserveSpan s e.addr e.size

/-- The spans of the modules the walk reads. -/
def moduleSpans (ram : Ram) (modlist m : Nat) : List PhysRange :=
  match moduleAt ram modlist m with
  | some (mpaddr, msize) => spanOf mpaddr msize
  | none => []

theorem Extends.modules (ram : Ram) (modlist : Nat) (ms : List Nat) (s : RegionSink) :
    Extends s [] (ms.flatMap (moduleSpans ram modlist)) (ms.foldl (reserveModule ram modlist) s) := by
  induction ms generalizing s with
  | nil => exact Extends.refl s
  | cons m ms ih =>
      rw [List.flatMap_cons, List.foldl_cons]
      change Extends s ([] ++ []) _ _
      refine Extends.trans ?_ (ih (reserveModule ram modlist s m))
      rw [reserveModule, moduleSpans]
      cases moduleAt ram modlist m with
      | none => exact Extends.refl s
      | some p => exact Extends.reserveSpan s p.1 p.2

/-! ## The block, read whole -/

/-- The block carries a memory map the reader gets to. -/
def HasMap (ram : Ram) (bi : Nat) : Prop :=
  (ID_LO ≤ bi ∧ bi + 52 ≤ ID_HI) ∧ wordAt ram bi 4 = PVH_MAGIC ∧ 1 ≤ wordAt ram (bi + 4) 4 ∧
    memmap ram bi ≠ 0 ∧ entries ram bi ≠ 0

/-- The RAM the walked entries declare. -/
def ramSpans (ram : Ram) (bi : Nat) : List PhysRange :=
  (entriesRead ram (memmap ram bi) (List.range (min (entries ram bi) 128))).flatMap ramSpan

/-- The spans reserved on the way, in the order they are pushed. -/
def reservedSpans (ram : Ram) (bi : Nat) (image : PhysRange) : List PhysRange :=
  [⟨0, 0x100000⟩] ++ spanOf bi 56 ++ (if cmdline ram bi ≠ 0 then spanOf (cmdline ram bi) FRAME else []) ++
    spanOf (modlist ram bi) (32 * nrModules ram bi) ++
    (List.range (min (nrModules ram bi) 64)).flatMap (moduleSpans ram (modlist ram bi)) ++
    spanOf (memmap ram bi) (24 * entries ram bi) ++
    (entriesRead ram (memmap ram bi) (List.range (min (entries ram bi) 128))).flatMap holeSpan ++
    (if image.len = 0 then [] else [image])

theorem spanOf_empty (base : Nat) : spanOf base 0 = [] := by
  rw [spanOf, if_neg]
  rw [satU]
  omega

/-- Word counts times entry sizes stay far below the saturation point. -/
theorem satU_mul_word (ram : Ram) (pa : Nat) {k : Nat} (hk : k ≤ 32) :
    satU 64 (wordAt ram pa 4 * k) = k * wordAt ram pa 4 := by
  have hlt := wordAt_lt ram pa 4
  have hle : wordAt ram pa 4 * k ≤ 256 ^ 4 * 32 := Nat.mul_le_mul (Nat.le_of_lt hlt) hk
  rw [satU_of_lt (Nat.lt_of_le_of_lt hle (by decide)), Nat.mul_comm]

theorem cap_eq_min (n k : Nat) : (if n > k then k else n) = min n k := by
  split <;> omega

section
variable (ram : Ram) {bi : Nat}

theorem Extends.reserveCmdline (hlo : ID_LO ≤ bi) (hhi : bi + 52 ≤ ID_HI) (s : RegionSink) :
    Extends s [] (if cmdline ram bi ≠ 0 then spanOf (cmdline ram bi) FRAME else []) (reserveCmdline ram bi s) := by
  have hread : readU64 ram (bi + 24) = some (cmdline ram bi) := readU64_eq (by omega) (by omega)
  rw [Pmm.reserveCmdline, hread]
  dsimp only
  split
  · exact Extends.reserveSpan s _ _
  · exact Extends.refl s

theorem Extends.reserveModules (hlo : ID_LO ≤ bi) (hhi : bi + 52 ≤ ID_HI) (s : RegionSink) :
    Extends s [] (spanOf (modlist ram bi) (32 * nrModules ram bi) ++
      (List.range (min (nrModules ram bi) 64)).flatMap (moduleSpans ram (modlist ram bi))) (reserveModules ram bi s) := by
  have hcount : readU32 ram (bi + 12) = some (nrModules ram bi) := readU32_eq (by omega) (by omega)
  have hlist : readU64 ram (bi + 16) = some (modlist ram bi) := readU64_eq (by omega) (by omega)
  have hbytes : satU 64 (nrModules ram bi * 32) = 32 * nrModules ram bi := satU_mul_word ram (bi + 12) (by decide)
  rw [Pmm.reserveModules, hcount, hlist]
  dsimp only
  split
  · next hzero =>
      rw [hzero, Nat.mul_zero, spanOf_empty, Nat.zero_min]
      exact Extends.refl s
  · rw [cap_eq_min, hbytes]
    exact Extends.trans (Extends.reserveSpan s _ _) (Extends.modules ram _ _ _)

theorem Extends.collectMemmap (hlo : ID_LO ≤ bi) (hhi : bi + 52 ≤ ID_HI) (hmap : memmap ram bi ≠ 0)
    (hentries : entries ram bi ≠ 0) (s : RegionSink) :
    Extends s (ramSpans ram bi) (spanOf (memmap ram bi) (24 * entries ram bi) ++
      (entriesRead ram (memmap ram bi) (List.range (min (entries ram bi) 128))).flatMap holeSpan)
      (collectMemmap ram bi s) := by
  have htable : readU64 ram (bi + 40) = some (memmap ram bi) := readU64_eq (by omega) (by omega)
  have hcount : readU32 ram (bi + 48) = some (entries ram bi) := readU32_eq (by omega) (by omega)
  have hbytes : satU 64 (entries ram bi * 24) = 24 * entries ram bi := satU_mul_word ram (bi + 48) (by decide)
  rw [Pmm.collectMemmap, htable, hcount]
  dsimp only
  rw [if_neg (not_or.mpr ⟨hmap, hentries⟩), cap_eq_min, hbytes, ramSpans]
  have hwalk := Extends.trans (Extends.reserveSpan s (memmap ram bi) (24 * entries ram bi))
    (Extends.walkMemmap ram (memmap ram bi) (List.range (min (entries ram bi) 128)) _)
  rwa [List.nil_append] at hwalk

variable {ram}

/-- A block with a map: the tables hold its RAM and everything the reader reserves. -/
theorem extends_of_hasMap (h : HasMap ram bi) (image : PhysRange) :
    Extends RegionSink.new (ramSpans ram bi) (reservedSpans ram bi image)
      ((collectRegions ram bi).pushReserved image.base image.len) := by
  obtain ⟨⟨hlo, hhi⟩, hmagic, hversion, hmap, hentries⟩ := h
  have himage : ∀ s : RegionSink, Extends s [] (if image.len = 0 then [] else [image])
      (s.pushReserved image.base image.len) := by
    intro s
    split
    · next hzero =>
        rw [RegionSink.pushReserved, dif_pos hzero]
        exact Extends.refl s
    · next hlen => exact Extends.pushReserved s hlen
  have hcollect : collectRegions ram bi = collectMemmap ram bi (reserveModules ram bi (reserveCmdline ram bi
      (reserveSpan (RegionSink.new.pushReserved 0 0x100000) bi 56))) := by
    have hread : readU32 ram bi = some (wordAt ram bi 4) := readU32_eq hlo (by omega)
    have hver : readU32 ram (bi + 4) = some (wordAt ram (bi + 4) 4) := readU32_eq (by omega) (by omega)
    rw [collectRegions, collectPvh, hread, hver]
    dsimp only
    rw [if_neg (not_not.mpr hmagic), Option.getD_some, if_neg (Nat.not_lt.mpr hversion)]
  have hlow := Extends.pushReserved RegionSink.new (r := ⟨0, 0x100000⟩) (by decide)
  have hsteps := ((((hlow.trans (Extends.reserveSpan _ bi 56)).trans (Extends.reserveCmdline ram hlo hhi _)).trans
    (Extends.reserveModules ram hlo hhi _)).trans (Extends.collectMemmap ram hlo hhi hmap hentries _)).trans (himage _)
  rw [hcollect, reservedSpans]
  simpa only [List.nil_append, List.append_nil, List.append_assoc] using hsteps

/-! What is reserved beside the map leaves the RAM recorded so far as it is. -/

theorem usable_reserveSpan (s : RegionSink) (base len : Nat) : (reserveSpan s base len).usable = s.usable := by
  rw [(Extends.reserveSpan s base len).usable, List.append_nil, List.take_of_length_le s.usable_le]

theorem usable_reserveCmdline (s : RegionSink) : (reserveCmdline ram bi s).usable = s.usable := by
  rw [reserveCmdline]
  split
  · split
    · exact usable_reserveSpan _ _ _
    · rfl
  · rfl

theorem usable_reserveModules (s : RegionSink) : (reserveModules ram bi s).usable = s.usable := by
  rw [reserveModules]
  split
  · rfl
  · split
    · rfl
    · split
      · rfl
      · rw [(Extends.modules ram _ _ _).usable, List.append_nil, List.take_of_length_le (RegionSink.usable_le _)]
        exact usable_reserveSpan _ _ _

/-- The reader records RAM only off a map. -/
theorem usable_of_not_hasMap (h : ¬ HasMap ram bi) : (collectRegions ram bi).usable = [] := by
  rw [collectRegions, collectPvh]
  split
  · rfl
  · next m hread =>
      obtain ⟨⟨hlo, -⟩, rfl⟩ := readU32_some hread
      split
      · rfl
      · next hmagic =>
          dsimp only
          have hbefore : (reserveModules ram bi (reserveCmdline ram bi
              (reserveSpan (RegionSink.new.pushReserved 0 0x100000) bi 56))).usable = [] := by
            rw [usable_reserveModules, usable_reserveCmdline, usable_reserveSpan]
            rfl
          split
          · exact hbefore
          · next hversion =>
              rw [collectMemmap]
              split
              · exact hbefore
              · next memmap htable =>
                  split
                  · exact hbefore
                  · next entries hcount =>
                      split
                      · exact hbefore
                      · next hempty =>
                          -- every read went through, so the block has a map
                          obtain ⟨-, htableAt⟩ := readU64_some htable
                          obtain ⟨⟨-, hhi⟩, hcountAt⟩ := readU32_some hcount
                          rw [htableAt, hcountAt] at hempty
                          obtain ⟨hmap, hentries⟩ := not_or.mp hempty
                          have hver : readU32 ram (bi + 4) = some (wordAt ram (bi + 4) 4) :=
                            readU32_eq (by omega) (by omega)
                          rw [hver, Option.getD_some] at hversion
                          exact absurd ⟨⟨hlo, by omega⟩, not_not.mp hmagic, Nat.le_of_not_lt hversion, hmap,
                            hentries⟩ h

/-! ## Frames left free by the walk -/

theorem entryAt_eq {i : Nat} (h : EntryWalked ram bi i) {j : Nat} (hj : j ≤ i) :
    entryAt ram (memmap ram bi) j = some (entry ram bi j) := by
  obtain ⟨-, hlo, hhi⟩ := h
  have htop : ID_HI < 2 ^ 64 := by decide
  have haddr : satU 64 (memmap ram bi + satU 64 (j * 24)) = memmap ram bi + 24 * j := by
    rw [satU_of_lt (show j * 24 < 2 ^ 64 by omega), satU_of_lt (by omega), Nat.mul_comm]
  rw [entryAt, haddr, readU64_eq (by omega) (by omega), readU64_eq (by omega) (by omega),
    readU32_eq (by omega) (by omega)]
  rfl

theorem mem_entriesRead {i n : Nat} (h : EntryWalked ram bi i) (hi : i < n) :
    entry ram bi i ∈ entriesRead ram (memmap ram bi) (List.range n) := by
  obtain ⟨pre, post, hsplit⟩ := List.append_of_mem (List.mem_range.mpr hi)
  have hpre : ∀ j ∈ pre, j ≤ i := by
    intro j hj
    have hsorted := List.pairwise_lt_range (n := n)
    rw [hsplit] at hsorted
    exact Nat.le_of_lt ((List.pairwise_append.mp hsorted).2.2 j hj i List.mem_cons_self)
  rw [hsplit]
  clear hsplit
  induction pre with
  | nil =>
      rw [List.nil_append, entriesRead, entryAt_eq h (Nat.le_refl i)]
      exact List.mem_cons_self
  | cons j pre ih =>
      rw [List.cons_append, entriesRead, entryAt_eq h (hpre j List.mem_cons_self)]
      exact List.mem_cons_of_mem _ (ih fun k hk => hpre k (List.mem_cons_of_mem j hk))

theorem moduleAt_eq {m : Nat} (h : ModuleWalked ram bi m) :
    moduleAt ram (modlist ram bi) m = some (bootModule ram bi m) := by
  obtain ⟨-, hlo, hhi⟩ := h
  have htop : ID_HI < 2 ^ 64 := by decide
  have haddr : satU 64 (modlist ram bi + satU 64 (m * 32)) = modlist ram bi + 32 * m := by
    rw [satU_of_lt (show m * 32 < 2 ^ 64 by omega), satU_of_lt (by omega), Nat.mul_comm]
  rw [moduleAt, haddr, satU_of_lt (show modlist ram bi + 32 * m + 8 < 2 ^ 64 by omega),
    readU64_eq (by omega) (by omega), readU64_eq (by omega) (by omega)]
  rfl

/-- A frame of recorded RAM that meets none of the reserved spans. -/
def LeftFree (ram : Ram) (bi : Nat) (image : PhysRange) (f : Nat) : Prop :=
  FRAME ∣ f ∧ (∃ r ∈ (ramSpans ram bi).take MAX_RANGES, r.Holds f) ∧
    ∀ r ∈ reservedSpans ram bi image, ¬ r.Touches f

theorem ramSpans_below {r : PhysRange} (h : r ∈ ramSpans ram bi) : r.base.toNat + r.len.toNat ≤ ID_HI := by
  obtain ⟨e, -, hr⟩ := List.mem_flatMap.mp h
  rw [ramSpan] at hr
  split at hr
  · rw [(mem_spanOf hr).2.2.2]
    exact Nat.min_le_right _ _
  · cases hr

theorem LeftFree.below {image : PhysRange} {f : Nat} (h : LeftFree ram bi image f) : f + FRAME ≤ ID_HI := by
  obtain ⟨-, ⟨r, hr, hholds⟩, -⟩ := h
  exact Nat.le_trans hholds.2 (ramSpans_below (List.mem_of_mem_take hr))

/-- A reserved span keeps its bytes out of the frames left free. -/
theorem LeftFree.clear {image : PhysRange} {f x base len : Nat} (h : LeftFree ram bi image f)
    (hx : f ≤ x ∧ x < f + FRAME) (hsub : spanOf base len ⊆ reservedSpans ram bi image) : ¬ InSpan x base len := by
  intro hin
  obtain ⟨r, hr, hlo, hhi⟩ := exists_spanOf hin (Nat.lt_of_lt_of_le hx.2 h.below)
  exact h.2.2 r (hsub hr) ⟨x, hx, hlo, hhi⟩

/-- Where a frame left free meets a protected byte, a walk was cut short. -/
theorem LeftFree.skipped {image : PhysRange} {f x : Nat} (h : LeftFree ram bi image f)
    (hx : f ≤ x ∧ x < f + FRAME) (hp : Protected ram bi x) : Skipped ram bi x := by
  cases hp with
  | entry i hole =>
      refine .entry i hole fun hwalked => ?_
      obtain ⟨hi, -, htype, hin⟩ := hole
      have hmem := mem_entriesRead hwalked (Nat.lt_min.mpr ⟨hi, hwalked.1⟩)
      refine h.clear hx (fun r hr => ?_) hin
      have hspan : r ∈ holeSpan (entry ram bi i) := by
        rw [holeSpan, if_neg htype]
        exact hr
      simp only [reservedSpans, List.mem_append, List.mem_flatMap]
      exact .inl (.inr ⟨_, hmem, hspan⟩)
  | bootModule m hmod =>
      refine .bootModule m hmod fun hwalked => ?_
      obtain ⟨hm, -, hin⟩ := hmod
      refine h.clear hx (fun r hr => ?_) hin
      have hspan : r ∈ moduleSpans ram (modlist ram bi) m := by
        rw [moduleSpans, moduleAt_eq hwalked]
        exact hr
      simp only [reservedSpans, List.mem_append, List.mem_flatMap]
      exact .inl (.inl (.inl (.inr ⟨m, List.mem_range.mpr (Nat.lt_min.mpr ⟨hm, hwalked.1⟩), hspan⟩)))
  | cmdline hcmd =>
      refine .cmdline hcmd ?_
      by_contra hpage
      have hin : InSpan x (cmdline ram bi) FRAME := ⟨hcmd.2.1, Nat.lt_of_not_le hpage⟩
      refine h.clear hx (fun r hr => ?_) hin
      simp only [reservedSpans, List.mem_append, if_pos hcmd.1]
      exact .inl (.inl (.inl (.inl (.inl (.inr hr)))))
  | startInfo hin =>
      refine absurd hin (h.clear hx fun r hr => ?_)
      simp only [reservedSpans, List.mem_append]
      exact .inl (.inl (.inl (.inl (.inl (.inl (.inr hr))))))
  | memmap hin =>
      refine absurd hin (h.clear hx fun r hr => ?_)
      simp only [reservedSpans, List.mem_append]
      exact .inl (.inl (.inr hr))
  | modlist hin =>
      refine absurd hin (h.clear hx fun r hr => ?_)
      simp only [reservedSpans, List.mem_append]
      exact .inl (.inl (.inl (.inl (.inr hr))))

/-! ## What gets seeded -/

theorem seed_tables (s : PmmState) (mem : Mem) :
    (s.seed mem).1.usable = s.usable ∧ (s.seed mem).1.reserved = s.reserved := by
  obtain ⟨husable, hreserved, -⟩ := PmmState.foldl_link_fields (seedFrames s.usable s.reserved)
    { s with head := 0, totalFrames := 0 } mem
  rw [PmmState.seed_eq]
  exact ⟨husable, hreserved⟩

/-- A boot seeds the tables of its sink, or nothing when a reservation was lost. -/
theorem pvhBoot_tables (ram : Ram) (bi : Nat) (image : PhysRange) (mem : Mem) :
    (pvhBoot ram bi image mem).usable =
        (if ((collectRegions ram bi).pushReserved image.base image.len).overflow then []
         else ((collectRegions ram bi).pushReserved image.base image.len).usable) ∧
      (pvhBoot ram bi image mem).reserved =
        (if ((collectRegions ram bi).pushReserved image.base image.len).overflow then []
         else ((collectRegions ram bi).pushReserved image.base image.len).reserved) := by
  rw [pvhBoot, PmmState.init, if_neg (show ¬ PmmState.new.initialized = true by decide)]
  dsimp only
  split
  · exact ⟨rfl, rfl⟩
  · exact seed_tables _ mem

theorem pushReserved_usable (s : RegionSink) (base len : BitVec 64) : (s.pushReserved base len).usable = s.usable := by
  rw [RegionSink.pushReserved]
  split
  · rfl
  · split <;> rfl

/-- The seeded frames of a PVH boot are the ones its walk leaves free, unless the reservation
table overflows. -/
theorem mem_pvhBoot (ram : Ram) (bi : Nat) (image : PhysRange) (mem : Mem) (f : Nat) :
    f ∈ seedFrames (pvhBoot ram bi image mem).usable (pvhBoot ram bi image mem).reserved ↔
      HasMap ram bi ∧ (reservedSpans ram bi image).length ≤ MAX_RESV ∧ LeftFree ram bi image f := by
  obtain ⟨husable, hreserved⟩ := pvhBoot_tables ram bi image mem
  by_cases hmap : HasMap ram bi
  · have hext := extends_of_hasMap hmap image
    by_cases hfits : (reservedSpans ram bi image).length ≤ MAX_RESV
    · obtain ⟨hres, hov⟩ := hext.fits (Nat.le_trans (Nat.le_of_eq (Nat.zero_add _)) hfits)
      have hne : ∀ r ∈ reservedSpans ram bi image, r.len ≠ 0 := by
        have := RegionSink.reserved_ne ((collectRegions ram bi).pushReserved image.base image.len)
        rwa [hres] at this
      have hoff : ¬ ((collectRegions ram bi).pushReserved image.base image.len).overflow = true := by
        rw [hov]
        decide
      have hkept := hext.usable
      rw [show RegionSink.new.usable = [] from rfl, List.nil_append] at hkept
      rw [show RegionSink.new.reserved = [] from rfl, List.nil_append] at hres
      rw [husable, hreserved, if_neg hoff, if_neg hoff, hkept, hres, mem_seedFrames]
      constructor
      · rintro ⟨⟨r, hr, hmem⟩, hzero, hclear⟩
        obtain ⟨hdvd, hholds, htop⟩ := mem_rangeFrames.mp hmem
        refine ⟨hmap, hfits, hdvd, ⟨r, hr, hholds⟩, fun s hs htouch => ?_⟩
        rw [(isReservedFrame_iff hne htop).mpr ⟨s, hs, htouch⟩] at hclear
        cases hclear
      · rintro ⟨-, -, hfree⟩
        have hbelow := hfree.below
        have htop : f + FRAME < 2 ^ 64 := Nat.lt_of_le_of_lt hbelow (by decide)
        obtain ⟨hdvd, ⟨r, hr, hholds⟩, hclear⟩ := hfree
        refine ⟨⟨r, hr, mem_rangeFrames.mpr ⟨hdvd, hholds, htop⟩⟩, ?_, ?_⟩
        · rintro rfl
          have hlow : (⟨0, 0x100000⟩ : PhysRange) ∈ reservedSpans ram bi image := by
            simp only [reservedSpans, List.mem_append, List.mem_singleton]
            exact .inl (.inl (.inl (.inl (.inl (.inl (.inl trivial))))))
          exact hclear _ hlow ⟨0, ⟨Nat.le_refl 0, by decide⟩, by decide, by decide⟩
        · rw [Bool.eq_false_iff, Ne, isReservedFrame_iff hne htop]
          rintro ⟨s, hs, htouch⟩
          exact hclear s hs htouch
    · have hfull := hext.full (Nat.lt_of_not_le fun hle => hfits (Nat.le_trans (Nat.le_of_eq (Nat.zero_add _).symm) hle))
      rw [husable, if_pos hfull]
      exact ⟨fun hmem => absurd hmem List.not_mem_nil, fun h => absurd h.2.1 hfits⟩
  · have hnone : (pvhBoot ram bi image mem).usable = [] := by
      rw [husable, pushReserved_usable, usable_of_not_hasMap hmap]
      exact ite_self _
    rw [hnone]
    exact ⟨fun hmem => absurd hmem List.not_mem_nil, fun h => absurd h.1 hmap⟩

end

/-- Every seeded frame is clear of the protected bytes. -/
def Reserved (ram : Ram) (bi : Nat) (s : PmmState) : Prop :=
  ∀ f ∈ seedFrames s.usable s.reserved, ∀ x, f ≤ x → x < f + FRAME → ¬ Protected ram bi x

/-- What the bounds cut off lies outside the frames the walk leaves free. -/
def WalkSuffices (ram : Ram) (bi : Nat) (image : PhysRange) : Prop :=
  HasMap ram bi → (reservedSpans ram bi image).length ≤ MAX_RESV →
    ∀ f, LeftFree ram bi image f → ∀ x, f ≤ x → x < f + FRAME → ¬ Skipped ram bi x

/-- The reservations of a PVH boot are complete exactly when nothing its bounded walks skip lies in
a frame that what they read leaves free. -/
theorem pvh_protected_iff (ram : Ram) (bi : Nat) (image : PhysRange) (mem : Mem) :
    Reserved ram bi (pvhBoot ram bi image mem) ↔ WalkSuffices ram bi image := by
  constructor
  · intro h hmap hfits f hfree x hle hlt hskip
    exact h f ((mem_pvhBoot ram bi image mem f).mpr ⟨hmap, hfits, hfree⟩) x hle hlt hskip.protected
  · intro h f hf x hle hlt hp
    obtain ⟨hmap, hfits, hfree⟩ := (mem_pvhBoot ram bi image mem f).mp hf
    exact h hmap hfits f hfree x hle hlt (hfree.skipped ⟨hle, hlt⟩ hp)

/-- Memory with a list of bytes laid over it. -/
def lay (base : Nat) (bs : List UInt8) (ram : Ram) : Ram :=
  fun a => if base ≤ a ∧ a < base + bs.length then bs.getD (a - base) 0 else ram a

/-- A block with two frames of RAM, the second of which holds the one module; the module list
lies at 1 GiB, where the ABI allows it and the guarded reader does not look. -/
def farModlist : Ram :=
  lay 0x9000 (le 4 PVH_MAGIC ++ le 4 1 ++ le 4 0 ++ le 4 1 ++ le 8 0x40000000 ++ le 8 0 ++ le 8 0 ++
      le 8 0xA000 ++ le 4 1 ++ le 4 0)
    (lay 0xA000 (le 8 0x100000 ++ le 8 0x2000 ++ le 4 1 ++ le 4 0)
      (lay 0x40000000 (le 8 0x101000 ++ le 8 0x1000 ++ le 8 0 ++ le 8 0) fun _ => 0))

/-- The module's frame is seeded. -/
theorem farModlist_not_reserved :
    ¬ Reserved farModlist 0x9000 (pvhBoot farModlist 0x9000 ⟨0x200000, 0x1000⟩ fun _ => 0) := by
  intro h
  have hseeded : 0x101000 ∈ seedFrames (pvhBoot farModlist 0x9000 ⟨0x200000, 0x1000⟩ fun _ => 0).usable
      (pvhBoot farModlist 0x9000 ⟨0x200000, 0x1000⟩ fun _ => 0).reserved := by decide
  refine h 0x101000 hseeded 0x101000 (Nat.le_refl _) (by decide) (.bootModule 0 ⟨?_, ?_, ?_, ?_⟩)
  · decide
  · decide
  · decide
  · decide

end Yuva.Pmm
