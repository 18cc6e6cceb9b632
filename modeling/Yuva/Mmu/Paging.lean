/-
# `Yuva.Mmu.Paging` — the four-level tables of x86_64

`tb-encode/src/paging.rs` and `tb-hal/src/arch/x86_64/mmu.rs`: entry encodings, and the
walks that build, read and clear private mappings under an explicit root.  Physical
memory is a word memory, indexed by the addresses of the words; tables are frames of it,
identity-mapped, so a table pointer is the frame's address.

`frame_alloc` pops the free stack, and `frame_free` of a frame in hand links it in front,
as the allocator does over its linked stack (`Yuva.Kernel.Agents` says so of
`Yuva.Pmm`); an empty stack is out of memory.  A frame comes with whatever its last holder
left in it.  The TLB is not modelled: `invlpg` changes no table.
-/
import Yuva.Lib.Radix
import Mathlib.Data.Nat.Bitwise
import Mathlib.Tactic.Ring

namespace Yuva.Mmu

open Yuva.Radix

def PAGE_SIZE : Nat := 4096
def ENTRIES : Nat := 512
def SHIFT_512G : Nat := 39
def SHIFT_1G : Nat := 30
def SHIFT_2M : Nat := 21
def SHIFT_4K : Nat := 12

/-- The output-address field of an entry, bits 47 to 12. -/
def ENTRY_ADDR_MASK : Nat := 0x0000FFFFFFFFF000

def PTE_P : Nat := 1
def PTE_RW : Nat := 2
def PTE_US : Nat := 4
def PTE_NX : Nat := 0x8000000000000000

def levelIndex (va shift : Nat) : Nat := (va >>> shift) &&& (ENTRIES - 1)

def makeEntry (pa attrs : Nat) : Nat := (pa &&& ENTRY_ADDR_MASK) ||| attrs

def entryAddr (entry : Nat) : Nat := entry &&& ENTRY_ADDR_MASK

def entryIsValid (entry : Nat) : Bool := entry &&& 1 ≠ 0

abbrev Mem := Nat → Nat

/-- The loop over the 512 words of a table; `g` gives each word from the memory so far. -/
@[irreducible] def fillTable (mem : Mem) (table : Nat) (g : Mem → Nat → Nat) : Mem :=
  (List.range ENTRIES).foldl (fun m i => Function.update m (table + 8 * i) (g m i)) mem

/-- Physical memory, and the frames the allocator has to give, the next one first. -/
structure Phys where
  mem : Mem
  free : List Nat

namespace Phys

def frameAlloc (p : Phys) : Option (Nat × Phys) :=
  match p.free with
  | [] => none
  | frame :: rest => some (frame, { p with free := rest })

/-- A frame goes back: its first word links to the frame that was on top, zero at the bottom. -/
def frameFree (p : Phys) (pa : Nat) : Phys :=
  { mem := Function.update p.mem pa (p.free.headD 0), free := pa :: p.free }

def write (p : Phys) (slot entry : Nat) : Phys := { p with mem := Function.update p.mem slot entry }

def zeroTable (p : Phys) (table : Nat) : Phys :=
  { p with mem := fillTable p.mem table fun _ _ => 0 }

def ensureTable (p : Phys) (parent idx : Nat) : Option Nat × Phys :=
  let slot := parent + 8 * idx
  let entry := p.mem slot
  if entryIsValid entry then (some (entryAddr entry), p)
  else
    match p.frameAlloc with
    | none => (none, p)
    | some (frame, p) => (some frame, (p.zeroTable frame).write slot (makeEntry frame (PTE_P ||| PTE_RW)))

/-- As `ensure_table`, with the user bit: an entry that lacks it gets it. -/
def ensureTableUser (p : Phys) (parent idx : Nat) : Option Nat × Phys :=
  let slot := parent + 8 * idx
  let entry := p.mem slot
  if entryIsValid entry then
    (some (entryAddr entry), if entry &&& PTE_US = 0 then p.write slot (entry ||| PTE_US) else p)
  else
    match p.frameAlloc with
    | none => (none, p)
    | some (frame, p) => (some frame, (p.zeroTable frame).write slot (makeEntry frame (PTE_P ||| PTE_RW ||| PTE_US)))

/-- Three levels of `ensure`, then the leaf. -/
def mapWith (ensure : Phys → Nat → Nat → Option Nat × Phys) (p : Phys) (rootPa va leaf : Nat) : Bool × Phys :=
  match ensure p rootPa (levelIndex va SHIFT_512G) with
  | (none, p) => (false, p)
  | (some pdpt, p) =>
      match ensure p pdpt (levelIndex va SHIFT_1G) with
      | (none, p) => (false, p)
      | (some pd, p) =>
          match ensure p pd (levelIndex va SHIFT_2M) with
          | (none, p) => (false, p)
          | (some pt, p) => (true, p.write (pt + 8 * levelIndex va SHIFT_4K) leaf)

def leafAttrs (writable : Bool) : Nat := (PTE_P ||| PTE_NX) ||| (if writable then PTE_RW else 0)

def mapInRoot (p : Phys) (rootPa va pa : Nat) (writable : Bool) : Bool × Phys :=
  p.mapWith ensureTable rootPa va (makeEntry pa (leafAttrs writable))

def userLeafAttrs (writable exec : Bool) : Nat :=
  (PTE_P ||| PTE_US) ||| (if writable then PTE_RW else 0) ||| (if exec then 0 else PTE_NX)

def mapUserInRoot (p : Phys) (rootPa va pa : Nat) (writable exec : Bool) : Bool × Phys :=
  p.mapWith ensureTableUser rootPa va (makeEntry pa (userLeafAttrs writable exec))

/-- A new root: a copy of the live one. -/
def addressSpaceNew (p : Phys) (cr3 : Nat) : Option Nat × Phys :=
  match p.frameAlloc with
  | none => (none, p)
  | some (root, p) =>
      (some root, { p with mem := fillTable p.mem root fun m i => m (cr3 + 8 * i) })

end Phys

def walkNext (mem : Mem) (parent idx : Nat) : Option Nat :=
  let entry := mem (parent + 8 * idx)
  if entryIsValid entry then some (entryAddr entry) else none

/-- The page table a virtual address goes through, if it is there. -/
def walkToPt (mem : Mem) (rootPa va : Nat) : Option Nat :=
  match walkNext mem rootPa (levelIndex va SHIFT_512G) with
  | none => none
  | some pdpt =>
      match walkNext mem pdpt (levelIndex va SHIFT_1G) with
      | none => none
      | some pd => walkNext mem pd (levelIndex va SHIFT_2M)

def Phys.unmapInRoot (p : Phys) (rootPa va : Nat) : Option Nat × Phys :=
  match walkToPt p.mem rootPa va with
  | none => (none, p)
  | some pt =>
      let slot := pt + 8 * levelIndex va SHIFT_4K
      let entry := p.mem slot
      if entry &&& PTE_P = 0 then (none, p) else (some (entryAddr entry), p.write slot 0)

def vaToPaInRoot (mem : Mem) (rootPa va : Nat) : Option Nat :=
  match walkToPt mem rootPa va with
  | none => none
  | some pt =>
      let entry := mem (pt + 8 * levelIndex va SHIFT_4K)
      if entry &&& PTE_P = 0 then none else some (entryAddr entry)

/-! ## Entries -/

theorem testBit_mask (i : Nat) : ENTRY_ADDR_MASK.testBit i = (decide (12 ≤ i) && decide (i < 48)) := by
  have hmask : ENTRY_ADDR_MASK = (2 ^ 36 - 1) * 2 ^ 12 := by decide
  rw [hmask, Nat.testBit_mul_two_pow, Nat.testBit_two_pow_sub_one]
  by_cases h : 12 ≤ i
  · have hlt : i - 12 < 36 ↔ i < 48 := by omega
    simp [h, hlt]
  · simp [h]

/-- The address field of an aligned address below `2^48` is the address. -/
theorem entryAddr_of_frame {f : Nat} (hdvd : PAGE_SIZE ∣ f) (hlt : f < 2 ^ 48) : entryAddr f = f := by
  obtain ⟨n, rfl⟩ := hdvd
  apply Nat.eq_of_testBit_eq
  intro i
  have hpage : PAGE_SIZE * n = n * 2 ^ 12 := Nat.mul_comm _ _
  rw [entryAddr, Nat.testBit_and, testBit_mask]
  by_cases hlo : 12 ≤ i
  · by_cases hhi : i < 48
    · simp [hlo, hhi]
    · have hbit : (PAGE_SIZE * n).testBit i = false :=
        Nat.testBit_lt_two_pow (Nat.lt_of_lt_of_le hlt (Nat.pow_le_pow_right (by decide) (Nat.le_of_not_lt hhi)))
      simp [hbit]
  · rw [hpage, Nat.testBit_mul_two_pow]
    simp [hlo]

theorem entryAddr_dvd (e : Nat) : PAGE_SIZE ∣ entryAddr e := by
  have hshift : entryAddr e = entryAddr e / 2 ^ 12 * 2 ^ 12 := by
    apply Nat.eq_of_testBit_eq
    intro i
    rw [Nat.testBit_mul_two_pow, Nat.testBit_div_two_pow, entryAddr, Nat.testBit_and, Nat.testBit_and]
    by_cases h : 12 ≤ i
    · simp [h]
    · simp [h, testBit_mask]
  rw [hshift]
  exact Nat.dvd_mul_left _ _

theorem entryAddr_makeEntry {pa attrs : Nat} (h : attrs &&& ENTRY_ADDR_MASK = 0) :
    entryAddr (makeEntry pa attrs) = entryAddr pa := by
  rw [entryAddr, makeEntry, Nat.and_or_distrib_right, h, Nat.or_zero, Nat.and_assoc, Nat.and_self, entryAddr]

/-- Attributes carry the present bit, and leave the address field alone. -/
def Attrs (attrs : Nat) : Prop := attrs &&& ENTRY_ADDR_MASK = 0 ∧ attrs &&& 1 = 1

theorem present_makeEntry {pa attrs : Nat} (h : Attrs attrs) : makeEntry pa attrs &&& 1 = 1 := by
  have hmask : ENTRY_ADDR_MASK &&& 1 = 0 := by decide
  rw [makeEntry, Nat.and_or_distrib_right, h.2, Nat.and_assoc, hmask, Nat.and_zero, Nat.zero_or]

theorem valid_makeEntry {pa attrs : Nat} (h : Attrs attrs) : entryIsValid (makeEntry pa attrs) = true := by
  rw [entryIsValid, present_makeEntry h]
  decide

theorem attrs_table : Attrs (PTE_P ||| PTE_RW) := ⟨by decide, by decide⟩

theorem attrs_userTable : Attrs (PTE_P ||| PTE_RW ||| PTE_US) := ⟨by decide, by decide⟩

theorem attrs_leaf (writable : Bool) : Attrs (Phys.leafAttrs writable) := by
  cases writable <;> exact ⟨by decide, by decide⟩

theorem attrs_userLeaf (writable exec : Bool) : Attrs (Phys.userLeafAttrs writable exec) := by
  cases writable <;> cases exec <;> exact ⟨by decide, by decide⟩

theorem levelIndex_lt (va shift : Nat) : levelIndex va shift < 512 := by
  rw [levelIndex]
  exact Nat.lt_of_le_of_lt Nat.and_le_right (by decide)

theorem levelIndex_eq (va shift : Nat) : levelIndex va shift = va / 2 ^ shift % 512 := by
  rw [levelIndex, Nat.shiftRight_eq_div_pow]
  exact Nat.and_two_pow_sub_one_eq_mod _ 9

end Yuva.Mmu
