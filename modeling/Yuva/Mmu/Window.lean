/-
# `Yuva.Mmu.Window` — the windows every address space sees

`tb-hal/src/arch/x86_64/mmu.rs`: the mappers of the kernel's two windows.  The heap window
(`PML4[2]`) and the device window (`PML4[3]`) are built under whichever root is live, and every
root is a copy of a live one, so the tables of a window are shared by all roots and a page mapped
under one is there under all.  `Yuva.Mmu.Forest` keeps the private trees apart; here the trees
are shared on purpose, and what carries the argument is a typing of the tables (`Role`):

    root        a top-level table
    window q    the table of a window that every root leads to along `q`
    own n       a table at depth `n` of some private tree

`Wired` says that the tables in use are typed, that each window table is anchored, and that a
root which leaves a window's slot vacant is the only root: the mappers hang a window's first
table under the live root alone, and nothing carries the entry over to roots made before.

`hwWalk` is the walk of the processor, with the rights of a page: what is writable, user or
executable is so at every level.
-/
import Yuva.Lib.Roles
import Yuva.Mmu.Spaces
import Yuva.Mmu.Uaccess

namespace Yuva.Mmu

open Yuva.Radix

def HEAP_WINDOW_BASE : Nat := 0x0000010000000000
def HEAP_WINDOW_SIZE : Nat := 0x40000000
def LAPIC_WINDOW_VA : Nat := 0x0000018000000000

def heapWindow : Nat × Nat := (HEAP_WINDOW_BASE, HEAP_WINDOW_SIZE)

def PTE_PWT : Nat := 8
def PTE_PCD : Nat := 16

def heapLeafAttrs : Nat := PTE_P ||| PTE_RW ||| PTE_NX
def deviceLeafAttrs : Nat := PTE_P ||| PTE_RW ||| PTE_PWT ||| PTE_PCD ||| PTE_NX

namespace Phys

/-- The data frame is taken last, when the tables are there. -/
def mapOneHeapPage (p : Phys) (pml4 va : Nat) : Bool × Phys :=
  match p.ensureTable pml4 (levelIndex va SHIFT_512G) with
  | (none, p) => (false, p)
  | (some pdpt, p) =>
      match p.ensureTable pdpt (levelIndex va SHIFT_1G) with
      | (none, p) => (false, p)
      | (some pd, p) =>
          match p.ensureTable pd (levelIndex va SHIFT_2M) with
          | (none, p) => (false, p)
          | (some pt, p) =>
              match p.frameAlloc with
              | none => (false, p)
              | some (data, p) => (true, p.write (pt + 8 * levelIndex va SHIFT_4K) (makeEntry data heapLeafAttrs))

/-- The loop of `map_heap_frames`, with `mapped` pages behind it and `togo` ahead. -/
def heapFramesFrom (pml4 startVa : Nat) : Nat → Nat → Phys → Nat × Phys
  | mapped, 0, p => (mapped, p)
  | mapped, togo + 1, p =>
      match p.mapOneHeapPage pml4 (startVa + mapped * PAGE_SIZE) with
      | (false, p) => (mapped, p)
      | (true, p) => heapFramesFrom pml4 startVa (mapped + 1) togo p

/-- How many of the `n` pages were mapped; `pml4` is the live root. -/
def mapHeapFrames (p : Phys) (pml4 startVa n : Nat) : Nat × Phys := heapFramesFrom pml4 startVa 0 n p

def mapDevicePage (p : Phys) (pml4 va pa : Nat) : Bool × Phys :=
  p.mapWith ensureTable pml4 va (makeEntry pa deviceLeafAttrs)

end Phys

/-! ## The walk of the processor -/

/-- What the processor gets of an address: the 4 KiB page, and what it may do there. -/
structure Page where
  pa : Nat
  write : Bool
  user : Bool
  exec : Bool
  uncached : Bool
  deriving DecidableEq, Repr

/-- The entries read on the way, the leaf last: `PS` ends the walk early, though not in the top table. -/
def hwEntries (mem : Mem) (va : Nat) : List Nat → Nat → Option (List Nat)
  | [], _ => none
  | shift :: shifts, table =>
      let entry := mem (table + 8 * levelIndex va shift)
      if entryIsValid entry then
        if shifts = [] ∨ shift ≠ SHIFT_512G ∧ entry &&& PTE_PS ≠ 0 then some [entry]
        else (hwEntries mem va shifts (entryAddr entry)).map (entry :: ·)
      else none

/-- `entries` are those of a walk of `va`; a leaf `n` levels down maps `2 ^ (48 - 9 * n)` bytes. -/
def pageOf (va : Nat) (entries : List Nat) : Page :=
  let leaf := entries.getLastD 0
  let span := 2 ^ (48 - 9 * entries.length)
  { pa := entryAddr leaf / span * span + va % span / PAGE_SIZE * PAGE_SIZE
    write := entries.all fun e => e &&& PTE_RW ≠ 0
    user := entries.all fun e => e &&& PTE_US ≠ 0
    exec := entries.all fun e => e &&& PTE_NX = 0
    uncached := leaf &&& PTE_PWT ≠ 0 && leaf &&& PTE_PCD ≠ 0 }

def hwWalk (mem : Mem) (rootPa va : Nat) : Option Page :=
  (hwEntries mem va [SHIFT_512G, SHIFT_1G, SHIFT_2M, SHIFT_4K] rootPa).map (pageOf va)

/-! ## Roles -/

def HEAP_SLOT : Fin 512 := 2
def DEVICE_SLOT : Fin 512 := 3

/-- The top-level slots of the two windows. -/
def windowSlot (i : Fin 512) : Bool := i = HEAP_SLOT || i = DEVICE_SLOT

inductive Role where
  | root
  | window (q : List (Fin 512))
  | own (depth : Nat)
  deriving DecidableEq

/-- What a cell of a table may point at; the slots of a root that are neither a window's nor
private, and the cells of page tables, are not followed. -/
def follows (priv : Fin 512 → Bool) : Role → Fin 512 → Option Role
  | .root, i => if windowSlot i then some (.window [i]) else if priv i then some (.own 1) else none
  | .window q, i => if q.length < 3 then some (.window (q ++ [i])) else none
  | .own n, _ => if n < 3 then some (.own (n + 1)) else none

/-- The leaf entry of an address, zero where its page table is missing. -/
def leafAt (mem : Mem) (r va : Nat) : Nat :=
  ((walk child (tab mem) r (path va)).map fun pt => tab mem pt (idx va SHIFT_4K)).getD 0

/-- The tables in use are typed and the window ones anchored; `pages` are data frames of the heap,
which like the free ones are no tables. -/
structure Wired (priv : Fin 512 → Bool) (roots pages : List Nat) (role : Nat → Option Role) (p : Phys) : Prop where
  nodup : (pages ++ p.free).Nodup
  frame : ∀ f ∈ pages ++ p.free, PAGE_SIZE ∣ f ∧ f < 2 ^ 48
  fresh : ∀ f ∈ pages ++ p.free, role (f / PAGE_SIZE) = none
  top : ∀ n, role n = some .root ↔ n ∈ roots
  typed : Typed child (follows priv) (tab p.mem) role
  anchored : ∀ u q, role u = some (.window q) → q ≠ [] ∧ walk id (follows priv) .root q = some (.window q) ∧
    Anchored child (tab p.mem) role .root q u
  made : ∀ t ρ i q u, role t = some ρ → follows priv ρ i = some (.window q) → child (tab p.mem t i) = some u →
    tab p.mem t i = makeEntry (PAGE_SIZE * u) (PTE_P ||| PTE_RW) ∧ PAGE_SIZE * u < 2 ^ 48
  opened : ∀ r ∈ roots, ∀ i, windowSlot i = true → child (tab p.mem r i) = none → ∀ r' ∈ roots, r' = r

/-- The windows look the same under every root. -/
def SameLeaves (roots : List Nat) (m m' : Mem) : Prop :=
  ∀ r ∈ roots, ∀ va, windowSlot (idx va SHIFT_512G) = true → leafAt m' r va = leafAt m r va

section
variable {priv : Fin 512 → Bool} {roots pages : List Nat} {role : Nat → Option Role} {p : Phys}

theorem SameLeaves.trans {m m' m'' : Mem} (h : SameLeaves roots m m') (h' : SameLeaves roots m' m'') :
    SameLeaves roots m m'' :=
  fun r hr va hva => (h' r hr va hva).trans (h r hr va hva)

/-! ## The path of a window address -/

theorem follows_window {i : Fin 512} (hi : windowSlot i = true) : follows priv .root i = some (.window [i]) := by
  rw [follows, if_pos hi]

theorem spells_path {va : Nat} (hva : windowSlot (idx va SHIFT_512G) = true) :
    walk id (follows priv) .root (path va) = some (.window (path va)) :=
  spells_cons.mpr ⟨_, follows_window hva, spells_cons.mpr ⟨_, rfl, spells_cons.mpr ⟨_, rfl, rfl⟩⟩⟩

theorem not_follows_leaf {q : List (Fin 512)} (hlen : q.length = 3) (i : Fin 512) :
    follows priv (.window q) i = none := by
  rw [follows, hlen, if_neg (Nat.lt_irrefl 3)]

/-- Only a window's own tables and the roots point at a window's tables. -/
theorem above_window {ρ : Role} {i : Fin 512} {q : List (Fin 512)} (h : follows priv ρ i = some (.window q)) :
    ρ = .root ∧ windowSlot i = true ∧ q = [i] ∨ ∃ q', ρ = .window q' ∧ q'.length < 3 ∧ q = q' ++ [i] := by
  cases ρ with
  | root =>
      rw [follows] at h
      split at h
      · next hi =>
          cases h
          exact .inl ⟨rfl, hi, rfl⟩
      · split at h <;> cases h
  | window q' =>
      rw [follows] at h
      split at h
      · next hlen =>
          cases h
          exact .inr ⟨q', rfl, hlen, rfl⟩
      · cases h
  | own n =>
      rw [follows] at h
      split at h <;> cases h

theorem follows_ne_root {ρ : Role} {i : Fin 512} {ρ' : Role} (h : follows priv ρ i = some ρ') : ρ' ≠ .root := by
  rintro rfl
  cases ρ with
  | root =>
      rw [follows] at h
      split at h
      · cases h
      · split at h <;> cases h
  | window q | own n =>
      rw [follows] at h
      split at h <;> cases h

namespace Wired

theorem root_of_mem (h : Wired priv roots pages role p) {r : Nat} (hr : r ∈ roots) : role r = some .root :=
  (h.top r).mpr hr

/-- A window address leads every root that has its page table to the same one, and that is its role. -/
theorem role_pt (h : Wired priv roots pages role p) {r va pt : Nat} (hr : r ∈ roots)
    (hva : windowSlot (idx va SHIFT_512G) = true) (hpt : walk child (tab p.mem) r (path va) = some pt) :
    role pt = some (.window (path va)) :=
  h.typed.walk (h.root_of_mem hr) (spells_path hva) hpt

/-- The leaves of a window do not depend on the root they are read from. -/
theorem leafAt_root (h : Wired priv roots pages role p) {r r' va : Nat} (hr : r ∈ roots) (hr' : r' ∈ roots)
    (hva : windowSlot (idx va SHIFT_512G) = true) : leafAt p.mem r va = leafAt p.mem r' va := by
  have hwalk : walk child (tab p.mem) r (path va) = walk child (tab p.mem) r' (path va) := by
    cases hpt : walk child (tab p.mem) r (path va) with
    | some pt => exact ((h.anchored pt _ (h.role_pt hr hva hpt)).2.2 r' (h.root_of_mem hr')).symm
    | none =>
        cases hpt' : walk child (tab p.mem) r' (path va) with
        | none => rfl
        | some pt' =>
            rw [(h.anchored pt' _ (h.role_pt hr' hva hpt')).2.2 r (h.root_of_mem hr)] at hpt
            cases hpt
  rw [leafAt, leafAt, hwalk]

/-- Memory may change where nobody follows it, and a private entry may change otherwise than in where it points. -/
theorem congr (h : Wired priv roots pages role p) (m : Mem)
    (hchild : ∀ t ρ i ρ', role t = some ρ → follows priv ρ i = some ρ' → child (tab m t i) = child (tab p.mem t i))
    (hwin : ∀ t ρ i q, role t = some ρ → follows priv ρ i = some (.window q) → tab m t i = tab p.mem t i) :
    Wired priv roots pages role { p with mem := m } where
  nodup := h.nodup
  frame := h.frame
  fresh := h.fresh
  top := h.top
  typed := h.typed.congr hchild
  anchored u q hu :=
    have ⟨hne, hq, ha⟩ := h.anchored u q hu
    ⟨hne, hq, h.typed.anchored_congr hchild hq ha⟩
  made t ρ i q u ht hi hu := by
    rw [hwin t ρ i q ht hi] at hu ⊢
    exact h.made t ρ i q u ht hi hu
  opened r hr i hi hnone := by
    rw [hwin r _ i _ (h.root_of_mem hr) (follows_window hi)] at hnone
    exact h.opened r hr i hi hnone

theorem sameLeaves (h : Wired priv roots pages role p) (m : Mem)
    (hchild : ∀ t ρ i ρ', role t = some ρ → follows priv ρ i = some ρ' → child (tab m t i) = child (tab p.mem t i))
    (hleaf : ∀ t q i, role t = some (.window q) → q.length = 3 → tab m t i = tab p.mem t i) :
    SameLeaves roots p.mem m := by
  intro r hr va hva
  rw [leafAt, leafAt, h.typed.walk_congr hchild (h.root_of_mem hr) (spells_path hva)]
  cases hpt : walk child (tab p.mem) r (path va) with
  | none => rfl
  | some pt => rw [Option.map_some, Option.map_some, hleaf pt _ _ (h.role_pt hr hva hpt) (length_path va)]

/-- A word outside the tables. -/
theorem write_outside (h : Wired priv roots pages role p) {addr : Nat} (val : Nat)
    (hout : role (addr / PAGE_SIZE) = none) :
    Wired priv roots pages role (p.write addr val) ∧ SameLeaves roots p.mem (p.write addr val).mem := by
  have hcell : ∀ t ρ i, role t = some ρ → tab (p.write addr val).mem t i = tab p.mem t i := by
    intro t ρ i ht
    refine Function.update_of_ne ?_ _ _
    rintro rfl
    have hdiv : (PAGE_SIZE * t + 8 * (i : Nat)) / PAGE_SIZE = t := by
      have := i.isLt
      rw [PAGE_SIZE]
      omega
    rw [hdiv, ht] at hout
    cases hout
  exact ⟨h.congr _ (fun t ρ i _ ht _ => congrArg child (hcell t ρ i ht)) (fun t ρ i _ ht _ => hcell t ρ i ht),
    h.sameLeaves _ (fun t ρ i _ ht _ => congrArg child (hcell t ρ i ht)) (fun t q i ht _ => hcell t _ i ht)⟩

/-- A leaf of a private tree. -/
theorem write_own (h : Wired priv roots pages role p) {t : Nat} (ht : role t = some (.own 3)) (i : Fin 512) (e : Nat) :
    Wired priv roots pages role (p.write (PAGE_SIZE * t + 8 * i) e) ∧
      SameLeaves roots p.mem (p.write (PAGE_SIZE * t + 8 * i) e).mem := by
  have hcell : ∀ t' ρ j, role t' = some ρ → ρ ≠ .own 3 →
      tab (p.write (PAGE_SIZE * t + 8 * i) e).mem t' j = tab p.mem t' j := by
    intro t' ρ j ht' hne
    have htab : tab (p.write (PAGE_SIZE * t + 8 * i) e).mem = Radix.set (tab p.mem) t i e := tab_update _ _ _ _
    rw [htab, set_of_ne]
    rintro ⟨rfl, -⟩
    rw [ht] at ht'
    exact hne (Option.some.inj ht').symm
  have hfollowed : ∀ t' ρ j ρ', role t' = some ρ → follows priv ρ j = some ρ' →
      tab (p.write (PAGE_SIZE * t + 8 * i) e).mem t' j = tab p.mem t' j := by
    intro t' ρ j ρ' ht' hj
    refine hcell t' ρ j ht' ?_
    rintro rfl
    rw [follows, if_neg (Nat.lt_irrefl 3)] at hj
    cases hj
  exact ⟨h.congr _ (fun t' ρ j ρ' ht' hj => congrArg child (hfollowed t' ρ j ρ' ht' hj))
      (fun t' ρ j q ht' hj => hfollowed t' ρ j _ ht' hj),
    h.sameLeaves _ (fun t' ρ j ρ' ht' hj => congrArg child (hfollowed t' ρ j ρ' ht' hj))
      (fun t' q j ht' _ => hcell t' _ j ht' (fun heq => by cases heq))⟩

/-- An entry of a private tree is rewritten to point where it did. -/
theorem relink (h : Wired priv roots pages role p) {t : Nat} {ρ : Role} {i : Fin 512} {n e : Nat}
    (ht : role t = some ρ) (hi : follows priv ρ i = some (.own n)) (he : child e = child (tab p.mem t i)) :
    Wired priv roots pages role (p.write (PAGE_SIZE * t + 8 * i) e) ∧
      SameLeaves roots p.mem (p.write (PAGE_SIZE * t + 8 * i) e).mem := by
  have htab : tab (p.write (PAGE_SIZE * t + 8 * i) e).mem = Radix.set (tab p.mem) t i e := tab_update _ _ _ _
  have hchild : ∀ t' ρ' j ρ'', role t' = some ρ' → follows priv ρ' j = some ρ'' →
      child (tab (p.write (PAGE_SIZE * t + 8 * i) e).mem t' j) = child (tab p.mem t' j) := by
    intro t' ρ' j ρ'' _ _
    rw [htab]
    by_cases hat : t' = t ∧ j = i
    · rw [hat.1, hat.2, set_self, he]
    · rw [set_of_ne hat]
  refine ⟨h.congr _ hchild ?_, h.sameLeaves _ hchild ?_⟩
  · intro t' ρ' j q ht' hj
    refine (congrFun (congrFun htab t') j).trans (set_of_ne ?_ e)
    rintro ⟨rfl, rfl⟩
    rw [ht] at ht'
    cases ht'
    rw [hi] at hj
    cases hj
  · intro t' q j ht' hlen
    rw [htab, set_of_ne]
    rintro ⟨rfl, rfl⟩
    rw [ht] at ht'
    cases ht'
    rw [not_follows_leaf hlen] at hi
    cases hi

/-- A fresh zeroed table is hung into a vacant cell and takes the role the cell calls for. -/
theorem hang (h : Wired priv roots pages role p) {t f : Nat} {ρ ρ' : Role} {i : Fin 512} {e : Nat}
    (ht : role t = some ρ) (hi : follows priv ρ i = some ρ') (hvacant : child (tab p.mem t i) = none)
    (he : child e = some f) (hzero : ∀ j, tab p.mem f j = 0) (hf : role f = none)
    (hout : PAGE_SIZE * f ∉ pages ++ p.free)
    (hmade : ∀ q, ρ' = .window q → e = makeEntry (PAGE_SIZE * f) (PTE_P ||| PTE_RW) ∧ PAGE_SIZE * f < 2 ^ 48) :
    Wired priv roots pages (Function.update role f (some ρ')) (p.write (PAGE_SIZE * t + 8 * i) e) ∧
      SameLeaves roots p.mem (p.write (PAGE_SIZE * t + 8 * i) e).mem := by
  have htab : tab (p.write (PAGE_SIZE * t + 8 * i) e).mem = Radix.set (tab p.mem) t i e := tab_update _ _ _ _
  have hempty : ∀ j, child (tab p.mem f j) = none := by
    intro j
    rw [hzero j]
    rfl
  have hft : f ≠ t := by
    rintro rfl
    rw [hf] at ht
    cases ht
  have hne := follows_ne_root hi
  refine ⟨⟨h.nodup, h.frame, ?_, ?_, ?_, ?_, ?_, ?_⟩, ?_⟩
  · intro g hg
    rw [Function.update_of_ne]
    · exact h.fresh g hg
    · rintro rfl
      rw [Nat.mul_div_cancel' (h.frame g hg).1] at hout
      exact hout hg
  · intro n
    by_cases hn : n = f
    · rw [hn, Function.update_self]
      refine ⟨fun heq => absurd (Option.some.inj heq) hne, fun hr => ?_⟩
      rw [h.root_of_mem hr] at hf
      cases hf
    · rw [Function.update_of_ne hn]
      exact h.top n
  · rw [htab]
    exact h.typed.hang ht hi he hf hempty
  · intro u q hu
    rw [htab]
    by_cases huf : u = f
    · rw [huf, Function.update_self] at hu
      obtain rfl := Option.some.inj hu
      rw [huf]
      rcases above_window hi with ⟨rfl, hslot, rfl⟩ | ⟨q', rfl, -, rfl⟩
      · -- the first table of a window: there is one root, and the table hangs under it
        refine ⟨List.cons_ne_nil _ _, spells_cons.mpr ⟨_, hi, rfl⟩, ?_⟩
        refine h.typed.anchored_hung ht hvacant he hf hempty hne (q := []) rfl fun s hs => ?_
        rw [h.opened t ((h.top t).mp ht) i hslot hvacant s ((h.top s).mp hs)]
        rfl
      · obtain ⟨-, hq', ha⟩ := h.anchored t q' ht
        refine ⟨fun hnil => by simp at hnil, ?_, h.typed.anchored_hung ht hvacant he hf hempty hne hq' ha⟩
        exact (walk_snoc hq' i).trans hi
    · rw [Function.update_of_ne huf] at hu
      obtain ⟨hnil, hq, ha⟩ := h.anchored u q hu
      exact ⟨hnil, hq, h.typed.anchored_hang ht hvacant he hf hempty hne hq ha⟩
  · intro t' ρ₁ j q u ht' hj hu
    rw [htab] at hu ⊢
    by_cases hat : t' = t ∧ j = i
    · obtain ⟨rfl, rfl⟩ := hat
      rw [Function.update_of_ne hft.symm, ht] at ht'
      cases ht'
      rw [set_self, he] at hu
      cases hu
      rw [hi] at hj
      rw [set_self]
      exact hmade q (Option.some.inj hj)
    · rw [set_of_ne hat] at hu ⊢
      by_cases htf : t' = f
      · rw [htf, hempty j] at hu
        cases hu
      · rw [Function.update_of_ne htf] at ht'
        exact h.made t' ρ₁ j q u ht' hj hu
  · intro r hr j hj hnone
    rw [htab] at hnone
    by_cases hat : r = t ∧ j = i
    · rw [hat.1, hat.2, set_self, he] at hnone
      cases hnone
    · rw [set_of_ne hat] at hnone
      exact h.opened r hr j hj hnone
  · intro r hr va hva
    rw [leafAt, leafAt, htab]
    rcases h.typed.walk_hang ht hvacant he hf hempty (h.root_of_mem hr) (spells_path hva) with hsame | ⟨hnone, hnew⟩
    · rw [hsame]
      cases hpt : walk child (tab p.mem) r (path va) with
      | none => rfl
      | some pt =>
          rw [Option.map_some, Option.map_some, set_of_ne]
          rintro ⟨rfl, -⟩
          -- a page table is not followed, and this one is
          have hrole := h.role_pt hr hva hpt
          rw [ht] at hrole
          cases hrole
          rw [not_follows_leaf (length_path va)] at hi
          cases hi
    · rw [hnone, hnew, Option.map_some, set_of_ne (fun hat => hft hat.1), hzero]
      rfl

/-- Frames may leave the free stack or come to it, as long as they are nobody's. -/
theorem refree (h : Wired priv roots pages role p) {pages' free : List Nat} (hnodup : (pages' ++ free).Nodup)
    (hframe : ∀ f ∈ pages' ++ free, PAGE_SIZE ∣ f ∧ f < 2 ^ 48)
    (hfresh : ∀ f ∈ pages' ++ free, role (f / PAGE_SIZE) = none) :
    Wired priv roots pages' role { p with free := free } :=
  ⟨hnodup, hframe, hfresh, h.top, h.typed, h.anchored, h.made, h.opened⟩

theorem pop (h : Wired priv roots pages role p) {f : Nat} {rest : List Nat} (hfree : p.free = f :: rest) :
    ∃ n, f = PAGE_SIZE * n ∧ f < 2 ^ 48 ∧ role n = none ∧ f ∉ pages ++ rest ∧
      Wired priv roots pages role { p with free := rest } := by
  have hmem : ∀ g ∈ pages ++ rest, g ∈ pages ++ p.free := by
    intro g hg
    rw [hfree]
    rcases List.mem_append.mp hg with hg | hg
    · exact List.mem_append_left _ hg
    · exact List.mem_append_right _ (List.mem_cons_of_mem f hg)
  have hf : f ∈ pages ++ p.free := by
    rw [hfree]
    exact List.mem_append_right _ List.mem_cons_self
  have hnodup := h.nodup
  rw [hfree, List.nodup_middle, List.nodup_cons] at hnodup
  obtain ⟨n, rfl⟩ := (h.frame f hf).1
  have hfresh := h.fresh _ hf
  rw [Nat.mul_div_cancel_left n (by decide)] at hfresh
  exact ⟨n, rfl, (h.frame _ hf).2, hfresh, hnodup.1,
    h.refree hnodup.2 (fun g hg => h.frame g (hmem g hg)) (fun g hg => h.fresh g (hmem g hg))⟩

end Wired

/-! ## What the mappers do -/

/-- A frame in use: a table, or a data frame of the heap. -/
def Held (pages : List Nat) (role : Nat → Option Role) (n : Nat) : Prop := role n ≠ none ∨ PAGE_SIZE * n ∈ pages

/-- Some free frames went into use as tables or data frames; what was a table still is that table. -/
structure Grows (priv : Fin 512 → Bool) (roots pages : List Nat) (role : Nat → Option Role) (p : Phys)
    (pages' : List Nat) (role' : Nat → Option Role) (p' : Phys) : Prop where
  wired : Wired priv roots pages' role' p'
  kept : ∀ {n ρ}, role n = some ρ → role' n = some ρ
  taken : ∃ new, p.free = new ++ p'.free ∧ ∀ n, Held pages' role' n ↔ n ∈ new.map (· / PAGE_SIZE) ∨ Held pages role n

variable {pages' pages'' : List Nat} {role' role'' : Nat → Option Role} {p' p'' : Phys}

theorem Grows.refl (h : Wired priv roots pages role p) : Grows priv roots pages role p pages role p :=
  ⟨h, fun hn => hn, [], rfl, fun _ => ⟨.inr, fun hin => hin.resolve_left List.not_mem_nil⟩⟩

theorem Grows.trans (h : Grows priv roots pages role p pages' role' p')
    (h' : Grows priv roots pages' role' p' pages'' role'' p'') : Grows priv roots pages role p pages'' role'' p'' := by
  obtain ⟨new, hfree, hheld⟩ := h.taken
  obtain ⟨new', hfree', hheld'⟩ := h'.taken
  refine ⟨h'.wired, fun hn => h'.kept (h.kept hn), new ++ new', ?_, fun n => ?_⟩
  · rw [hfree, hfree', List.append_assoc]
  · rw [hheld', hheld, List.map_append, List.mem_append]
    exact or_left_comm.trans or_assoc.symm

/-- A write that keeps the tables. -/
theorem Grows.write (h : Grows priv roots pages role p pages' role' p') {addr val : Nat}
    (hw : Wired priv roots pages' role' (p'.write addr val)) :
    Grows priv roots pages role p pages' role' (p'.write addr val) :=
  ⟨hw, h.kept, h.taken⟩

theorem Grows.mem_usedAfter (h : Grows priv roots pages role p pages' role' p') {used : List Nat}
    (hused : ∀ n, n ∈ used ↔ Held pages role n) (n : Nat) : n ∈ usedAfter used p p' ↔ Held pages' role' n := by
  obtain ⟨new, hfree, hheld⟩ := h.taken
  have hnew : p.free.take (p.free.length - p'.free.length) = new := by
    rw [hfree, List.length_append, Nat.add_sub_cancel, List.take_left]
  rw [usedAfter, List.mem_append, hnew, hheld, hused]

/-- What one level of a walk ends in: out of frames and nothing changed, or a table of the role called for. -/
def Fills (ensure : Phys → Nat → Nat → Option Nat × Phys) (ok : Role → Prop) : Prop :=
  ∀ {priv : Fin 512 → Bool} {roots pages : List Nat} {role : Nat → Option Role} {p : Phys} {t : Nat} {ρ ρ' : Role}
    {i : Fin 512}, Wired priv roots pages role p → role t = some ρ → follows priv ρ i = some ρ' → ok ρ' →
    ensure p (PAGE_SIZE * t) i = (none, p) ∧ p.free = [] ∨
      ∃ u role' p', ensure p (PAGE_SIZE * t) i = (some (PAGE_SIZE * u), p') ∧
        Grows priv roots pages role p pages role' p' ∧ role' u = some ρ' ∧ SameLeaves roots p.mem p'.mem

/-- Building a missing table, for either mapper's interior entry. -/
theorem grows_hang (h : Wired priv roots pages role p) {t f : Nat} {ρ ρ' : Role} {i : Fin 512} {rest : List Nat}
    (ht : role t = some ρ) (hi : follows priv ρ i = some ρ') (hvacant : child (tab p.mem t i) = none)
    (hfree : p.free = f :: rest) {attrs : Nat} (hattrs : Attrs attrs)
    (hmade : ∀ q, ρ' = .window q → attrs = PTE_P ||| PTE_RW) :
    ∃ u role', f = PAGE_SIZE * u ∧
      Grows priv roots pages role p pages role'
        (({ p with free := rest }.zeroTable f).write (PAGE_SIZE * t + 8 * i) (makeEntry f attrs)) ∧
      role' u = some ρ' ∧
      SameLeaves roots p.mem
        (({ p with free := rest }.zeroTable f).write (PAGE_SIZE * t + 8 * i) (makeEntry f attrs)).mem := by
  obtain ⟨n, rfl, hlt, hfresh, hout, hpopped⟩ := h.pop hfree
  -- zeroing the frame is seen by nobody
  have hcell : ∀ m ρ₁ j, role m = some ρ₁ →
      tab ({ p with free := rest }.zeroTable (PAGE_SIZE * n)).mem m j = tab p.mem m j := by
    intro m ρ₁ j hm
    rw [tab_zeroTable, if_neg]
    rintro rfl
    rw [hfresh] at hm
    cases hm
  have hzeroed : Wired priv roots pages role ({ p with free := rest }.zeroTable (PAGE_SIZE * n)) :=
    hpopped.congr _ (fun m ρ₁ j _ hm _ => congrArg child (hcell m ρ₁ j hm)) (fun m ρ₁ j _ hm _ => hcell m ρ₁ j hm)
  have hsame : SameLeaves roots p.mem ({ p with free := rest }.zeroTable (PAGE_SIZE * n)).mem :=
    h.sameLeaves _ (fun m ρ₁ j _ hm _ => congrArg child (hcell m ρ₁ j hm)) (fun m q j hm _ => hcell m _ j hm)
  have hzero : ∀ j, tab ({ p with free := rest }.zeroTable (PAGE_SIZE * n)).mem n j = 0 := by
    intro j
    rw [tab_zeroTable, if_pos rfl]
  obtain ⟨hwired, hsame'⟩ := hzeroed.hang ht hi ((congrArg child (hcell t ρ i ht)).trans hvacant)
    (child_makeEntry hlt hattrs) hzero hfresh hout fun q hq => ⟨by rw [hmade q hq], hlt⟩
  refine ⟨n, _, rfl, ⟨hwired, Typed.update_fresh hfresh, [PAGE_SIZE * n], hfree, fun m => ?_⟩,
    Function.update_self _ _ _, hsame.trans hsame'⟩
  rw [List.map_singleton, List.mem_singleton, Nat.mul_div_cancel_left n (by decide), Held, Held]
  by_cases hm : m = n
  · rw [hm, Function.update_self]
    exact ⟨fun _ => .inl rfl, fun _ => .inl (Option.some_ne_none _)⟩
  · rw [Function.update_of_ne hm]
    exact ⟨.inr, fun hin => hin.resolve_left hm⟩

theorem fills_ensureTable : Fills Phys.ensureTable fun _ => True := by
  intro priv roots pages role p t ρ ρ' i h ht hi _
  rw [Phys.ensureTable]
  change (if entryIsValid (tab p.mem t i) = true then _ else _) = _ ∧ _ ∨
    ∃ u role' p', (if entryIsValid (tab p.mem t i) = true then (some (entryAddr (tab p.mem t i)), p) else _) = _ ∧ _
  cases hvalid : entryIsValid (tab p.mem t i) with
  | true =>
      have hchild : child (tab p.mem t i) = some (entryAddr (tab p.mem t i) / PAGE_SIZE) := by
        rw [child, if_pos hvalid]
      refine .inr ⟨_, role, p, ?_, Grows.refl h, h.typed t ρ i ρ' _ ht hi hchild, fun _ _ _ _ => rfl⟩
      rw [if_pos rfl, Nat.mul_div_cancel' (entryAddr_dvd _)]
  | false =>
      have hvacant : child (tab p.mem t i) = none := by rw [child, hvalid]; rfl
      rw [if_neg Bool.false_ne_true, if_neg Bool.false_ne_true, Phys.frameAlloc]
      cases hfree : p.free with
      | nil => exact .inl ⟨rfl, rfl⟩
      | cons f rest =>
          obtain ⟨u, role', rfl, hgrows, hu, hsame⟩ := grows_hang h ht hi hvacant hfree attrs_table fun _ _ => rfl
          exact .inr ⟨u, role', _, rfl, hgrows, hu, hsame⟩

/-- The user mapper builds private tables. -/
theorem fills_ensureTableUser : Fills Phys.ensureTableUser fun ρ => ∃ n, ρ = .own n := by
  rintro priv roots pages role p t ρ ρ' i h ht hi ⟨n, rfl⟩
  rw [Phys.ensureTableUser]
  change (if entryIsValid (tab p.mem t i) = true then _ else _) = _ ∧ _ ∨
    ∃ u role' p', (if entryIsValid (tab p.mem t i) = true then (some (entryAddr (tab p.mem t i)), _) else _) = _ ∧ _
  cases hvalid : entryIsValid (tab p.mem t i) with
  | true =>
      have hchild : child (tab p.mem t i) = some (entryAddr (tab p.mem t i) / PAGE_SIZE) := by
        rw [child, if_pos hvalid]
      have hu := h.typed t ρ i _ _ ht hi hchild
      rw [if_pos rfl, if_pos rfl]
      by_cases huser : p.mem (PAGE_SIZE * t + 8 * i) &&& PTE_US = 0
      · rw [if_pos huser]
        obtain ⟨hwired, hsame⟩ := h.relink ht hi (child_user (tab p.mem t i))
        refine .inr ⟨_, role, _, ?_, (Grows.refl h).write hwired, hu, hsame⟩
        rw [Nat.mul_div_cancel' (entryAddr_dvd _)]
        rfl
      · rw [if_neg huser]
        refine .inr ⟨_, role, p, ?_, Grows.refl h, hu, fun _ _ _ _ => rfl⟩
        rw [Nat.mul_div_cancel' (entryAddr_dvd _)]
  | false =>
      have hvacant : child (tab p.mem t i) = none := by rw [child, hvalid]; rfl
      rw [if_neg Bool.false_ne_true, if_neg Bool.false_ne_true, Phys.frameAlloc]
      cases hfree : p.free with
      | nil => exact .inl ⟨rfl, rfl⟩
      | cons f rest =>
          obtain ⟨u, role', rfl, hgrows, hu, hsame⟩ :=
            grows_hang h ht hi hvacant hfree attrs_userTable fun q hq => by cases hq
          exact .inr ⟨u, role', _, rfl, hgrows, hu, hsame⟩

/-! ## Three levels down -/

/-- The page table of an address, its missing tables built. -/
def Phys.tables (ensure : Phys → Nat → Nat → Option Nat × Phys) (p : Phys) (rootPa va : Nat) : Option Nat × Phys :=
  match ensure p rootPa (levelIndex va SHIFT_512G) with
  | (none, p) => (none, p)
  | (some pdpt, p) =>
      match ensure p pdpt (levelIndex va SHIFT_1G) with
      | (none, p) => (none, p)
      | (some pd, p) => ensure p pd (levelIndex va SHIFT_2M)

theorem mapWith_eq (ensure : Phys → Nat → Nat → Option Nat × Phys) (rootPa va leaf : Nat) :
    p.mapWith ensure rootPa va leaf =
      match p.tables ensure rootPa va with
      | (none, p) => (false, p)
      | (some pt, p) => (true, p.write (pt + 8 * levelIndex va SHIFT_4K) leaf) := by
  rw [Phys.mapWith, Phys.tables]
  rcases ensure p rootPa (levelIndex va SHIFT_512G) with ⟨_ | pdpt, p₁⟩
  · rfl
  dsimp only
  rcases ensure p₁ pdpt (levelIndex va SHIFT_1G) with ⟨_ | pd, p₂⟩
  · rfl
  rcases hpt : ensure p₂ pd (levelIndex va SHIFT_2M) with ⟨_ | pt, p₃⟩
  · simp only [hpt]
  · simp only [hpt]

theorem mapOneHeapPage_eq (pml4 va : Nat) :
    p.mapOneHeapPage pml4 va =
      match p.tables Phys.ensureTable pml4 va with
      | (none, p) => (false, p)
      | (some pt, p) =>
          match p.frameAlloc with
          | none => (false, p)
          | some (data, p) => (true, p.write (pt + 8 * levelIndex va SHIFT_4K) (makeEntry data heapLeafAttrs)) := by
  rw [Phys.mapOneHeapPage, Phys.tables]
  rcases p.ensureTable pml4 (levelIndex va SHIFT_512G) with ⟨_ | pdpt, p₁⟩
  · rfl
  dsimp only
  rcases p₁.ensureTable pdpt (levelIndex va SHIFT_1G) with ⟨_ | pd, p₂⟩
  · rfl
  rfl

theorem tables_spec {ensure : Phys → Nat → Nat → Option Nat × Phys} {ok : Role → Prop} (hens : Fills ensure ok)
    (h : Wired priv roots pages role p) {r va : Nat} (hr : r ∈ roots) {ρ₁ ρ₂ ρ₃ : Role}
    (h₁ : follows priv .root (idx va SHIFT_512G) = some ρ₁) (h₂ : follows priv ρ₁ (idx va SHIFT_1G) = some ρ₂)
    (h₃ : follows priv ρ₂ (idx va SHIFT_2M) = some ρ₃) (hok : ok ρ₁ ∧ ok ρ₂ ∧ ok ρ₃) :
    ∃ role' p', Grows priv roots pages role p pages role' p' ∧ SameLeaves roots p.mem p'.mem ∧
      (p.tables ensure (PAGE_SIZE * r) va = (none, p') ∧ p'.free = [] ∨
        ∃ pt, p.tables ensure (PAGE_SIZE * r) va = (some (PAGE_SIZE * pt), p') ∧ role' pt = some ρ₃) := by
  rw [Phys.tables]
  rcases hens h (h.root_of_mem hr) h₁ hok.1 with ⟨heq, hfree⟩ | ⟨pdpt, role₁, p₁, heq, hg₁, hu₁, hs₁⟩
  · rw [idx] at heq
    rw [heq]
    exact ⟨role, p, Grows.refl h, fun _ _ _ _ => rfl, .inl ⟨rfl, hfree⟩⟩
  rw [idx] at heq
  rw [heq]
  dsimp only
  rcases hens hg₁.wired hu₁ h₂ hok.2.1 with ⟨heq, hfree⟩ | ⟨pd, role₂, p₂, heq, hg₂, hu₂, hs₂⟩
  · rw [idx] at heq
    rw [heq]
    exact ⟨role₁, p₁, hg₁, hs₁, .inl ⟨rfl, hfree⟩⟩
  rw [idx] at heq
  rw [heq]
  dsimp only
  rcases hens hg₂.wired hu₂ h₃ hok.2.2 with ⟨heq, hfree⟩ | ⟨pt, role₃, p₃, heq, hg₃, hu₃, hs₃⟩
  · rw [idx] at heq
    rw [heq]
    exact ⟨role₂, p₂, hg₁.trans hg₂, hs₁.trans hs₂, .inl ⟨rfl, hfree⟩⟩
  rw [idx] at heq
  exact ⟨role₃, p₃, (hg₁.trans hg₂).trans hg₃, (hs₁.trans hs₂).trans hs₃, .inr ⟨pt, heq, hu₃⟩⟩

/-! ## Private pages -/

/-- A private slot that is no window's. -/
theorem follows_private {i : Fin 512} (hpriv : priv i = true) (hwin : windowSlot i = false) :
    follows priv .root i = some (.own 1) := by
  rw [follows, hwin, hpriv]
  rfl

theorem spells_private {va : Nat} (hpriv : priv (idx va SHIFT_512G) = true)
    (hwin : windowSlot (idx va SHIFT_512G) = false) : walk id (follows priv) .root (path va) = some (.own 3) :=
  spells_cons.mpr ⟨_, follows_private hpriv hwin, spells_cons.mpr ⟨_, rfl, spells_cons.mpr ⟨_, rfl, rfl⟩⟩⟩

/-- A map into a private slot of some root is seen in no window. -/
theorem mapPrivate_spec {ensure : Phys → Nat → Nat → Option Nat × Phys} {ok : Role → Prop} (hens : Fills ensure ok)
    (hok : ∀ n, ok (.own n)) (h : Wired priv roots pages role p) {r va : Nat} (hr : r ∈ roots)
    (hpriv : priv (idx va SHIFT_512G) = true) (hwin : windowSlot (idx va SHIFT_512G) = false) (leaf : Nat) :
    ∃ role', Grows priv roots pages role p pages role' (p.mapWith ensure (PAGE_SIZE * r) va leaf).2 ∧
      SameLeaves roots p.mem (p.mapWith ensure (PAGE_SIZE * r) va leaf).2.mem := by
  obtain ⟨role', p', hg, hs, ⟨heq, -⟩ | ⟨pt, heq, hpt⟩⟩ :=
    tables_spec hens h hr (show follows priv .root (idx va SHIFT_512G) = _ from follows_private hpriv hwin) rfl rfl
      ⟨hok 1, hok 2, hok 3⟩
  · rw [mapWith_eq, heq]
    exact ⟨role', hg, hs⟩
  · rw [mapWith_eq, heq]
    obtain ⟨hwired, hs'⟩ := hg.wired.write_own hpt (idx va SHIFT_4K) leaf
    exact ⟨role', hg.write hwired, hs.trans hs'⟩

theorem unmapPrivate_spec (h : Wired priv roots pages role p) {r va : Nat} (hr : r ∈ roots)
    (hpriv : priv (idx va SHIFT_512G) = true) (hwin : windowSlot (idx va SHIFT_512G) = false) :
    Wired priv roots pages role (p.unmapInRoot (PAGE_SIZE * r) va).2 ∧
      SameLeaves roots p.mem (p.unmapInRoot (PAGE_SIZE * r) va).2.mem ∧
      (p.unmapInRoot (PAGE_SIZE * r) va).2.free = p.free := by
  rw [Phys.unmapInRoot, walkToPt_eq]
  cases hpt : walk child (tab p.mem) r (path va) with
  | none => exact ⟨h, fun _ _ _ _ => rfl, rfl⟩
  | some pt =>
      obtain ⟨hwired, hs⟩ :=
        h.write_own (h.typed.walk (h.root_of_mem hr) (spells_private hpriv hwin) hpt) (idx va SHIFT_4K) 0
      rw [Option.map_some]
      dsimp only
      split
      · exact ⟨h, fun _ _ _ _ => rfl, rfl⟩
      · exact ⟨hwired, hs, rfl⟩

/-- A new root looks the windows up where the live one does. -/
theorem newRoot_spec (h : Wired priv roots pages role p) {live : Nat} (hlive : live ∈ roots)
    (hopen : ∀ i, windowSlot i = true → child (tab p.mem live i) ≠ none) :
    p.addressSpaceNew (PAGE_SIZE * live) = (none, p) ∨
      ∃ n p', p.addressSpaceNew (PAGE_SIZE * live) = (some (PAGE_SIZE * n), p') ∧ p.free = PAGE_SIZE * n :: p'.free ∧
        role n = none ∧ Wired priv (n :: roots) pages (Function.update role n (some .root)) p' ∧
        SameLeaves roots p.mem p'.mem := by
  rw [Phys.addressSpaceNew, Phys.frameAlloc]
  cases hfree : p.free with
  | nil => exact .inl rfl
  | cons f rest =>
      obtain ⟨n, rfl, -, hfresh, hout, hpopped⟩ := h.pop hfree
      have hroot := h.root_of_mem hlive
      obtain ⟨mem', hmem'⟩ : ∃ mem', mem' = fillTable p.mem (PAGE_SIZE * n) fun m i => m (PAGE_SIZE * live + 8 * i) :=
        ⟨_, rfl⟩
      have hne : live ≠ n := by
        rintro rfl
        rw [hroot] at hfresh
        cases hfresh
      have htab : ∀ m j, tab mem' m j = if m = n then tab p.mem live j else tab p.mem m j := by
        intro m j
        rw [hmem']
        refine tab_fillTable p.mem n _ ?_ m j
        intro m' i hsame hi
        exact hsame live hne ⟨i, hi⟩
      have hcell : ∀ m ρ j, role m = some ρ → tab mem' m j = tab p.mem m j := by
        intro m ρ j hm
        rw [htab, if_neg]
        rintro rfl
        rw [hfresh] at hm
        cases hm
      have hcopy : ∀ j, tab mem' n j = tab mem' live j := by
        intro j
        rw [htab, if_pos rfl, hcell live _ j hroot]
      have hold : Wired priv roots pages role ⟨mem', rest⟩ :=
        hpopped.congr mem' (fun m ρ j _ hm _ => congrArg child (hcell m ρ j hm)) (fun m ρ j _ hm _ => hcell m ρ j hm)
      have hsame : SameLeaves roots p.mem mem' :=
        h.sameLeaves mem' (fun m ρ j _ hm _ => congrArg child (hcell m ρ j hm)) (fun m q j hm _ => hcell m _ j hm)
      dsimp only
      rw [← hmem']
      refine .inr ⟨n, ⟨mem', rest⟩, rfl, rfl, hfresh, ⟨hold.nodup, hold.frame, ?_, ?_, ?_, ?_, ?_, ?_⟩, hsame⟩
      · intro g hg
        rw [Function.update_of_ne]
        · exact hold.fresh g hg
        · rintro rfl
          rw [Nat.mul_div_cancel' (hold.frame g hg).1] at hout
          exact hout hg
      · intro m
        by_cases hm : m = n
        · rw [hm, Function.update_self]
          exact ⟨fun _ => List.mem_cons_self, fun _ => rfl⟩
        · rw [Function.update_of_ne hm, h.top, List.mem_cons]
          exact ⟨.inr, fun hin => hin.resolve_left hm⟩
      · refine hold.typed.enter hfresh fun i ρ u hi hu => ?_
        rw [hcopy] at hu
        exact hold.typed live _ i ρ u hroot hi hu
      · intro u q hu
        have hu' : role u = some (.window q) := by
          by_cases hun : u = n
          · rw [hun, Function.update_self] at hu
            cases hu
          · rwa [Function.update_of_ne hun] at hu
        obtain ⟨hnil, hq, ha⟩ := hold.anchored u q hu'
        exact ⟨hnil, hq, Typed.anchored_enter hroot hcopy hnil ha⟩
      · intro t ρ i q u ht hi hu
        by_cases htn : t = n
        · rw [htn, Function.update_self] at ht
          obtain rfl := Option.some.inj ht
          rw [htn, hcopy] at hu ⊢
          exact hold.made live _ i q u hroot hi hu
        · rw [Function.update_of_ne htn] at ht
          exact hold.made t ρ i q u ht hi hu
      · -- no root leaves a window's slot vacant any more
        intro r hr i hi hnone
        exfalso
        have hlive' : child (tab mem' live i) ≠ none := by
          rw [hcell live _ i hroot]
          exact hopen i hi
        rcases List.mem_cons.mp hr with rfl | hr
        · rw [hcopy] at hnone
          exact hlive' hnone
        · rw [← hold.opened r hr i hi hnone live hlive] at hnone
          exact hlive' hnone

/-! ## Pages of a window -/

theorem Wired.write_leaf (h : Wired priv roots pages role p) {va pt : Nat} (hpt : role pt = some (.window (path va)))
    (e : Nat) :
    Wired priv roots pages role (p.write (PAGE_SIZE * pt + 8 * idx va SHIFT_4K) e) ∧
      ∀ r ∈ roots, ∀ va', windowSlot (idx va' SHIFT_512G) = true →
        leafAt (p.write (PAGE_SIZE * pt + 8 * idx va SHIFT_4K) e).mem r va' =
          if SamePage va va' then e else leafAt p.mem r va' := by
  have htab : tab (p.write (PAGE_SIZE * pt + 8 * idx va SHIFT_4K) e).mem =
      Radix.set (tab p.mem) pt (idx va SHIFT_4K) e := tab_update _ _ _ _
  have hcell : ∀ t ρ i ρ', role t = some ρ → follows priv ρ i = some ρ' →
      tab (p.write (PAGE_SIZE * pt + 8 * idx va SHIFT_4K) e).mem t i = tab p.mem t i := by
    intro t ρ i ρ' ht hi
    rw [htab, set_of_ne]
    rintro ⟨rfl, -⟩
    rw [hpt] at ht
    cases ht
    rw [not_follows_leaf (length_path va)] at hi
    cases hi
  refine ⟨h.congr _ (fun t ρ i ρ' ht hi => congrArg child (hcell t ρ i ρ' ht hi)) (fun t ρ i q ht hi =>
    hcell t ρ i _ ht hi), ?_⟩
  intro r hr va' hva'
  have hwalk := h.typed.walk_congr
    (fun t ρ i ρ' ht hi => congrArg child (hcell t ρ i ρ' ht hi)) (h.root_of_mem hr) (spells_path hva')
  rw [leafAt, leafAt, hwalk]
  by_cases hpage : SamePage va va'
  · rw [if_pos hpage, hpage.1, (h.anchored pt _ hpt).2.2 r (h.root_of_mem hr), Option.map_some, htab, hpage.2, set_self]
    rfl
  · rw [if_neg hpage]
    cases hpt' : walk child (tab p.mem) r (path va') with
    | none => rfl
    | some pt' =>
        rw [Option.map_some, Option.map_some, htab, set_of_ne]
        rintro ⟨rfl, hidx⟩
        have hrole := h.role_pt hr hva' hpt'
        rw [hpt] at hrole
        exact hpage ⟨(Role.window.inj (Option.some.inj hrole)).symm, hidx⟩

/-- The tables of a window address, under the live root. -/
theorem windowTables_spec (h : Wired priv roots pages role p) {r va : Nat} (hr : r ∈ roots)
    (hva : windowSlot (idx va SHIFT_512G) = true) :
    ∃ role' p', Grows priv roots pages role p pages role' p' ∧ SameLeaves roots p.mem p'.mem ∧
      (p.tables Phys.ensureTable (PAGE_SIZE * r) va = (none, p') ∧ p'.free = [] ∨
        ∃ pt, p.tables Phys.ensureTable (PAGE_SIZE * r) va = (some (PAGE_SIZE * pt), p') ∧
          role' pt = some (.window (path va))) :=
  tables_spec fills_ensureTable h hr (follows_window hva) rfl rfl ⟨trivial, trivial, trivial⟩

theorem mapDevicePage_spec (h : Wired priv roots pages role p) {r va : Nat} (hr : r ∈ roots)
    (hva : windowSlot (idx va SHIFT_512G) = true) (pa : Nat) :
    ∃ role' p', Grows priv roots pages role p pages role' p' ∧
      (p.mapDevicePage (PAGE_SIZE * r) va pa = (false, p') ∧ SameLeaves roots p.mem p'.mem ∨
        p.mapDevicePage (PAGE_SIZE * r) va pa = (true, p') ∧
          ∀ r' ∈ roots, ∀ va', windowSlot (idx va' SHIFT_512G) = true →
            leafAt p'.mem r' va' = if SamePage va va' then makeEntry pa deviceLeafAttrs else leafAt p.mem r' va') := by
  obtain ⟨role', p', hg, hs, ⟨heq, -⟩ | ⟨pt, heq, hpt⟩⟩ := windowTables_spec h hr hva
  · rw [Phys.mapDevicePage, mapWith_eq, heq]
    exact ⟨role', p', hg, .inl ⟨rfl, hs⟩⟩
  · rw [Phys.mapDevicePage, mapWith_eq, heq]
    obtain ⟨hwired, hleaf⟩ := hg.wired.write_leaf hpt (makeEntry pa deviceLeafAttrs)
    refine ⟨role', _, hg.write hwired, .inr ⟨rfl, fun r' hr' va' hva' => ?_⟩⟩
    rw [← hs r' hr' va' hva']
    exact hleaf r' hr' va' hva'

/-- A heap page takes the frame on top of the stack once its tables are there. -/
theorem mapOneHeapPage_spec (h : Wired priv roots pages role p) {r va : Nat} (hr : r ∈ roots)
    (hva : windowSlot (idx va SHIFT_512G) = true) :
    ∃ role' p', p.mapOneHeapPage (PAGE_SIZE * r) va = (false, p') ∧ p'.free = [] ∧
        Grows priv roots pages role p pages role' p' ∧ SameLeaves roots p.mem p'.mem ∨
      ∃ d, p.mapOneHeapPage (PAGE_SIZE * r) va = (true, p') ∧
        Grows priv roots pages role p (pages ++ [d]) role' p' ∧
        ∀ r' ∈ roots, ∀ va', windowSlot (idx va' SHIFT_512G) = true →
          leafAt p'.mem r' va' = if SamePage va va' then makeEntry d heapLeafAttrs else leafAt p.mem r' va' := by
  obtain ⟨role', mid, hg, hs, ⟨heq, hfree⟩ | ⟨pt, heq, hpt⟩⟩ := windowTables_spec h hr hva
  · rw [mapOneHeapPage_eq, heq]
    exact ⟨role', mid, .inl ⟨rfl, hfree, hg, hs⟩⟩
  rw [mapOneHeapPage_eq, heq]
  dsimp only
  rw [Phys.frameAlloc]
  cases hfree : mid.free with
  | nil => exact ⟨role', mid, .inl ⟨rfl, hfree, hg, hs⟩⟩
  | cons d rest =>
      have hpages : (pages ++ [d]) ++ rest = pages ++ mid.free := by
        rw [hfree, List.append_assoc]
        rfl
      have hmoved : Wired priv roots (pages ++ [d]) role' { mid with free := rest } := by
        have hw := hg.wired
        exact ⟨hpages ▸ hw.nodup, fun f hf => hw.frame f (hpages ▸ hf), fun f hf => hw.fresh f (hpages ▸ hf), hw.top,
          hw.typed, hw.anchored, hw.made, hw.opened⟩
      obtain ⟨hwired, hleaf⟩ := hmoved.write_leaf hpt (makeEntry d heapLeafAttrs)
      refine ⟨role', _, .inr ⟨d, rfl, ⟨hwired, hg.kept, ?_⟩, fun r' hr' va' hva' => ?_⟩⟩
      · obtain ⟨new, hnew, hheld⟩ := hg.taken
        refine ⟨new ++ [d], ?_, fun n => ?_⟩
        · rw [hnew, hfree, List.append_assoc]
          rfl
        · obtain ⟨m, rfl⟩ := (hg.wired.frame d (hfree ▸ List.mem_append_right _ List.mem_cons_self)).1
          have hsplit : Held (pages ++ [PAGE_SIZE * m]) role' n ↔ Held pages role' n ∨ n = m := by
            rw [Held, Held, List.mem_append, List.mem_singleton, Nat.mul_left_cancel_iff (by decide), or_assoc]
          rw [hsplit, hheld, List.map_append, List.map_singleton, List.mem_append, List.mem_singleton,
            Nat.mul_div_cancel_left m (by decide), or_right_comm]
      · rw [← hs r' hr' va' hva']
        exact hleaf r' hr' va' hva'

end

/-! ## What the windows hold -/

/-- The pages of the device window, newest mapping first. -/
def lastDevice : List (Nat × Nat) → Nat → Option Nat
  | [], _ => none
  | (va', pa) :: devs, va => if page va = page va' then some pa else lastDevice devs va

/-- The leaf of a window address: page `j` of the heap window is backed by frame `j`. -/
def wanted (pages : List Nat) (devs : List (Nat × Nat)) (va : Nat) : Nat :=
  if idx va SHIFT_512G = HEAP_SLOT then
    (pages[page va - page HEAP_WINDOW_BASE]?).elim 0 fun d => makeEntry d heapLeafAttrs
  else (lastDevice devs va).elim 0 fun pa => makeEntry pa deviceLeafAttrs

/-- Every root shows the windows as wanted. -/
def Shown (roots : List Nat) (m : Mem) (want : Nat → Nat) : Prop :=
  ∀ r ∈ roots, ∀ va, windowSlot (idx va SHIFT_512G) = true → leafAt m r va = want va

section
variable {priv : Fin 512 → Bool} {roots pages : List Nat} {role : Nat → Option Role} {p : Phys}

theorem Shown.same {m m' : Mem} {want : Nat → Nat} (h : Shown roots m want) (hs : SameLeaves roots m m') :
    Shown roots m' want :=
  fun r hr va hva => (hs r hr va hva).trans (h r hr va hva)

/-- The address of page `k` of the heap window. -/
def heapPageVa (k : Nat) : Nat := HEAP_WINDOW_BASE + k * PAGE_SIZE

theorem heapPageVa_succ (k : Nat) : heapPageVa (k + 1) = heapPageVa k + PAGE_SIZE := by
  rw [heapPageVa, heapPageVa, Nat.succ_mul, Nat.add_assoc]

theorem page_heapPageVa {k : Nat} (hk : k < 2 ^ 18) : page (heapPageVa k) = page HEAP_WINDOW_BASE + k := by
  rw [page, page, heapPageVa, HEAP_WINDOW_BASE, PAGE_SIZE]
  omega

theorem idx_heapPageVa {k : Nat} (hk : k < 2 ^ 18) : idx (heapPageVa k) SHIFT_512G = HEAP_SLOT := by
  rw [Fin.ext_iff, idx]
  dsimp only
  rw [levelIndex_eq, heapPageVa, HEAP_WINDOW_BASE, PAGE_SIZE, SHIFT_512G]
  change _ = 2
  omega

theorem page_ge_of_heap {va : Nat} (hva : idx va SHIFT_512G = HEAP_SLOT) : page HEAP_WINDOW_BASE ≤ page va := by
  have hslot : levelIndex va SHIFT_512G = 2 := congrArg Fin.val hva
  have hbase : page HEAP_WINDOW_BASE = 2 * 2 ^ 27 := by decide
  rw [hbase, page_eq va, hslot]
  omega

/-- The next page of the heap window gets the next frame. -/
theorem Shown.heapPage {devs : List (Nat × Nat)} {m m' : Mem} (h : Shown roots m (wanted pages devs)) {d : Nat}
    (hk : pages.length < 2 ^ 18)
    (hleaf : ∀ r ∈ roots, ∀ va, windowSlot (idx va SHIFT_512G) = true →
      leafAt m' r va = if SamePage (heapPageVa pages.length) va then makeEntry d heapLeafAttrs else leafAt m r va) :
    Shown roots m' (wanted (pages ++ [d]) devs) := by
  intro r hr va hva
  rw [hleaf r hr va hva, h r hr va hva, wanted, wanted]
  have hsame : SamePage (heapPageVa pages.length) va ↔ page va = page HEAP_WINDOW_BASE + pages.length := by
    rw [samePage_iff, page_heapPageVa hk]
  by_cases hheap : idx va SHIFT_512G = HEAP_SLOT
  · have hge := page_ge_of_heap hheap
    rw [if_pos hheap, if_pos hheap]
    by_cases hat : page va = page HEAP_WINDOW_BASE + pages.length
    · rw [if_pos (hsame.mpr hat), hat, Nat.add_sub_cancel_left, List.getElem?_concat_length]
      rfl
    · rw [if_neg (fun hsp => hat (hsame.mp hsp))]
      rcases Nat.lt_or_ge (page va - page HEAP_WINDOW_BASE) pages.length with hlt | hge'
      · rw [List.getElem?_append_left hlt]
      · rw [List.getElem?_eq_none hge', List.getElem?_eq_none]
        rw [List.length_append, List.length_singleton]
        omega
  · rw [if_neg hheap, if_neg hheap, if_neg]
    rintro ⟨hpath, -⟩
    have hslot := congrArg List.head? hpath
    simp only [path, List.head?_cons, Option.some.injEq] at hslot
    rw [idx_heapPageVa hk] at hslot
    exact hheap hslot

theorem Shown.devicePage {devs : List (Nat × Nat)} {m m' : Mem} (h : Shown roots m (wanted pages devs)) {va₀ pa : Nat}
    (hva₀ : idx va₀ SHIFT_512G = DEVICE_SLOT)
    (hleaf : ∀ r ∈ roots, ∀ va, windowSlot (idx va SHIFT_512G) = true →
      leafAt m' r va = if SamePage va₀ va then makeEntry pa deviceLeafAttrs else leafAt m r va) :
    Shown roots m' (wanted pages ((va₀, pa) :: devs)) := by
  intro r hr va hva
  rw [hleaf r hr va hva, h r hr va hva, wanted, wanted]
  by_cases hheap : idx va SHIFT_512G = HEAP_SLOT
  · rw [if_pos hheap, if_pos hheap, if_neg]
    rintro ⟨hpath, -⟩
    have hslot := congrArg List.head? hpath
    simp only [path, List.head?_cons, Option.some.injEq] at hslot
    rw [hheap, hva₀] at hslot
    exact absurd hslot (by decide)
  · rw [if_neg hheap, if_neg hheap, lastDevice]
    by_cases hsame : page va = page va₀
    · rw [if_pos (samePage_iff.mpr hsame), if_pos hsame]
      rfl
    · rw [if_neg (fun hsp => hsame (samePage_iff.mp hsp)), if_neg hsame]

/-- The loop of `map_heap_frames`: page by page, until the frames run out. -/
theorem heapFramesFrom_spec {r : Nat} (hr : r ∈ roots) {devs : List (Nat × Nat)} {start : Nat} :
    ∀ (togo : Nat) {mapped : Nat} {pages : List Nat} {role : Nat → Option Role} {p : Phys},
      Wired priv roots pages role p → Shown roots p.mem (wanted pages devs) →
      start + mapped * PAGE_SIZE = heapPageVa pages.length → pages.length + togo ≤ 2 ^ 18 →
      ∃ ds role', (Phys.heapFramesFrom (PAGE_SIZE * r) start mapped togo p).1 = mapped + ds.length ∧ ds.length ≤ togo ∧
        Grows priv roots pages role p (pages ++ ds) role' (Phys.heapFramesFrom (PAGE_SIZE * r) start mapped togo p).2 ∧
        Shown roots (Phys.heapFramesFrom (PAGE_SIZE * r) start mapped togo p).2.mem (wanted (pages ++ ds) devs) ∧
        (ds.length < togo → (Phys.heapFramesFrom (PAGE_SIZE * r) start mapped togo p).2.free = []) := by
  intro togo
  induction togo with
  | zero =>
      intro mapped pages role p h hshown _ _
      refine ⟨[], role, rfl, Nat.le_refl _, ?_, ?_, fun hlt => absurd hlt (Nat.lt_irrefl _)⟩
      · rw [List.append_nil]
        exact Grows.refl h
      · rw [List.append_nil]
        exact hshown
  | succ togo ih =>
      intro mapped pages role p h hshown hstart hroom
      have hk : pages.length < 2 ^ 18 := by omega
      have hslot : windowSlot (idx (start + mapped * PAGE_SIZE) SHIFT_512G) = true := by
        rw [hstart, idx_heapPageVa hk]
        rfl
      rw [Phys.heapFramesFrom]
      obtain ⟨role₁, p₁, ⟨heq, hfree, hg, hs⟩ | ⟨d, heq, hg, hleaf⟩⟩ := mapOneHeapPage_spec h hr hslot
      · rw [heq]
        refine ⟨[], role₁, rfl, Nat.zero_le _, ?_, ?_, fun _ => hfree⟩
        · rw [List.append_nil]
          exact hg
        · rw [List.append_nil]
          exact hshown.same hs
      · rw [hstart] at hleaf
        have hnext : start + (mapped + 1) * PAGE_SIZE = heapPageVa (pages ++ [d]).length := by
          rw [List.length_append, List.length_singleton, heapPageVa_succ, ← hstart, Nat.succ_mul, Nat.add_assoc]
        obtain ⟨ds, role', hcount, hle, hg', hshown', hfree⟩ := @ih (mapped + 1) _ _ _ hg.wired
          (hshown.heapPage hk hleaf) hnext (by rw [List.length_append, List.length_singleton]; omega)
        rw [heq]
        rw [List.append_assoc, List.singleton_append] at hg' hshown'
        refine ⟨d :: ds, role', ?_, Nat.succ_le_succ hle, hg.trans hg', hshown', fun hlt => ?_⟩
        · rw [List.length_cons]
          dsimp only
          omega
        · rw [List.length_cons] at hlt
          exact hfree (by omega)

/-! ## What the processor makes of it -/

theorem makeEntry_and {pa attrs bit : Nat} (hbit : ENTRY_ADDR_MASK &&& bit = 0) :
    makeEntry pa attrs &&& bit = attrs &&& bit := by
  rw [makeEntry, Nat.and_or_distrib_right, Nat.and_assoc, hbit, Nat.and_zero, Nat.zero_or]

/-- The page a leaf maps, below tables that allow writing, no user access and executing. -/
def leafPage (leaf : Nat) : Page :=
  { pa := entryAddr leaf
    write := leaf &&& PTE_RW ≠ 0
    user := false
    exec := leaf &&& PTE_NX = 0
    uncached := leaf &&& PTE_PWT ≠ 0 && leaf &&& PTE_PCD ≠ 0 }

/-- Below interior entries of a window the leaf decides. -/
theorem pageOf_window (va n₁ n₂ n₃ leaf : Nat) :
    pageOf va ([n₁, n₂, n₃].map (makeEntry · (PTE_P ||| PTE_RW)) ++ [leaf]) = leafPage leaf := by
  have hrw : ∀ n, makeEntry n (PTE_P ||| PTE_RW) &&& PTE_RW = 2 := fun n => makeEntry_and (by decide)
  have hus : ∀ n, makeEntry n (PTE_P ||| PTE_RW) &&& PTE_US = 0 := fun n => makeEntry_and (by decide)
  have hnx : ∀ n, makeEntry n (PTE_P ||| PTE_RW) &&& PTE_NX = 0 := fun n => makeEntry_and (by decide)
  have hpa : entryAddr leaf / 2 ^ 12 * 2 ^ 12 + va % 2 ^ 12 / PAGE_SIZE * PAGE_SIZE = entryAddr leaf := by
    have hoff : va % 2 ^ 12 / PAGE_SIZE = 0 := Nat.div_eq_of_lt (Nat.mod_lt _ (by decide))
    rw [hoff, Nat.zero_mul, Nat.add_zero, Nat.div_mul_cancel (show 2 ^ 12 ∣ _ from entryAddr_dvd leaf)]
  rw [pageOf, leafPage, Page.mk.injEq]
  refine ⟨hpa, ?_, ?_, ?_, rfl⟩
  · simp [hrw]
  · simp [hus]
  · simp [hnx]

/-- One level of the walk, over an entry of a window's tables. -/
theorem Wired.hwEntries_window (h : Wired priv roots pages role p) {t va shift next : Nat} {shifts : List Nat}
    {ρ : Role} {q : List (Fin 512)} (ht : role t = some ρ) (hi : follows priv ρ (idx va shift) = some (.window q)) :
    hwEntries p.mem va (shift :: next :: shifts) (PAGE_SIZE * t) =
      (child (tab p.mem t (idx va shift))).bind fun u => (hwEntries p.mem va (next :: shifts) (PAGE_SIZE * u)).map
        (makeEntry (PAGE_SIZE * u) (PTE_P ||| PTE_RW) :: ·) := by
  rw [hwEntries]
  cases hu : child (tab p.mem t (idx va shift)) with
  | none =>
      rw [child] at hu
      split at hu
      · cases hu
      · next hvalid => exact if_neg hvalid
  | some u =>
      obtain ⟨heq, hlt⟩ := h.made t ρ _ q u ht hi hu
      have hentry : p.mem (PAGE_SIZE * t + 8 * levelIndex va shift) =
          makeEntry (PAGE_SIZE * u) (PTE_P ||| PTE_RW) := heq
      have hps : makeEntry (PAGE_SIZE * u) (PTE_P ||| PTE_RW) &&& PTE_PS = 0 := makeEntry_and (by decide)
      have hsmall : ¬ (next :: shifts = [] ∨
          shift ≠ SHIFT_512G ∧ makeEntry (PAGE_SIZE * u) (PTE_P ||| PTE_RW) &&& PTE_PS ≠ 0) := by
        rintro (hnil | ⟨-, hlarge⟩)
        · cases hnil
        · exact hlarge hps
      generalize p.mem (PAGE_SIZE * t + 8 * levelIndex va shift) = entry at hentry
      subst hentry
      rw [if_pos (valid_makeEntry attrs_table), if_neg hsmall, Option.bind_some, entryAddr_makeEntry attrs_table.1,
        entryAddr_of_frame (Nat.dvd_mul_right _ _) hlt]

theorem hwEntries_leaf (m : Mem) (va pt : Nat) :
    hwEntries m va [SHIFT_4K] (PAGE_SIZE * pt) =
      if entryIsValid (tab m pt (idx va SHIFT_4K)) then some [tab m pt (idx va SHIFT_4K)] else none := by
  rw [hwEntries]
  rfl

/-- The processor reads the leaf of a window address where `leafAt` does. -/
theorem hwWalk_window (h : Wired priv roots pages role p) {r va : Nat} (hr : r ∈ roots)
    (hva : windowSlot (idx va SHIFT_512G) = true) :
    hwWalk p.mem (PAGE_SIZE * r) va =
      if entryIsValid (leafAt p.mem r va) then some (leafPage (leafAt p.mem r va)) else none := by
  have hroot := h.root_of_mem hr
  have hempty : entryIsValid 0 = false := rfl
  rw [hwWalk, h.hwEntries_window hroot (follows_window hva), leafAt, path, walk_cons]
  cases hu₁ : child (tab p.mem r (idx va SHIFT_512G)) with
  | none => simp [hempty]
  | some u₁ =>
      have hrole₁ := h.typed _ _ _ _ _ hroot (follows_window hva) hu₁
      rw [Option.bind_some, Option.bind_some, h.hwEntries_window hrole₁ rfl, walk_cons]
      cases hu₂ : child (tab p.mem u₁ (idx va SHIFT_1G)) with
      | none => simp [hempty]
      | some u₂ =>
          have hrole₂ := h.typed _ _ _ _ _ hrole₁ rfl hu₂
          rw [Option.bind_some, Option.bind_some, h.hwEntries_window hrole₂ rfl, walk_cons]
          cases hu₃ : child (tab p.mem u₂ (idx va SHIFT_2M)) with
          | none => simp [hempty]
          | some u₃ =>
              rw [Option.bind_some, Option.bind_some, walk, Option.map_some, Option.getD_some, hwEntries_leaf]
              split
              · rw [Option.map_some, Option.map_some, Option.map_some, Option.map_some]
                exact congrArg some (pageOf_window va _ _ _ _)
              · rfl

/-- A heap page: for the kernel to read and write. -/
def heapPage (frame : Nat) : Page := ⟨frame, true, false, false, false⟩

/-- A device page: the same, past the caches. -/
def devicePage (pa : Nat) : Page := ⟨physPage pa, true, false, false, true⟩

theorem attrs_heapLeaf : Attrs heapLeafAttrs := ⟨by decide, by decide⟩

theorem attrs_deviceLeaf : Attrs deviceLeafAttrs := ⟨by decide, by decide⟩

theorem leafPage_heap {d : Nat} (hdvd : PAGE_SIZE ∣ d) (hlt : d < 2 ^ 48) :
    leafPage (makeEntry d heapLeafAttrs) = heapPage d := by
  rw [leafPage, heapPage, entryAddr_makeEntry attrs_heapLeaf.1, entryAddr_of_frame hdvd hlt]
  simp only [makeEntry_and (show ENTRY_ADDR_MASK &&& PTE_RW = 0 by decide),
    makeEntry_and (show ENTRY_ADDR_MASK &&& PTE_NX = 0 by decide),
    makeEntry_and (show ENTRY_ADDR_MASK &&& PTE_PWT = 0 by decide),
    makeEntry_and (show ENTRY_ADDR_MASK &&& PTE_PCD = 0 by decide)]
  rfl

theorem leafPage_device (pa : Nat) : leafPage (makeEntry pa deviceLeafAttrs) = devicePage pa := by
  rw [leafPage, devicePage, entryAddr_makeEntry attrs_deviceLeaf.1, entryAddr_eq]
  simp only [makeEntry_and (show ENTRY_ADDR_MASK &&& PTE_RW = 0 by decide),
    makeEntry_and (show ENTRY_ADDR_MASK &&& PTE_NX = 0 by decide),
    makeEntry_and (show ENTRY_ADDR_MASK &&& PTE_PWT = 0 by decide),
    makeEntry_and (show ENTRY_ADDR_MASK &&& PTE_PCD = 0 by decide)]
  rfl

theorem hwWalk_heap (h : Wired priv roots pages role p) {devs : List (Nat × Nat)}
    (hshown : Shown roots p.mem (wanted pages devs)) {r va : Nat} (hr : r ∈ roots)
    (hva : idx va SHIFT_512G = HEAP_SLOT) :
    hwWalk p.mem (PAGE_SIZE * r) va = (pages[page va - page HEAP_WINDOW_BASE]?).map heapPage := by
  have hslot : windowSlot (idx va SHIFT_512G) = true := by rw [hva]; rfl
  rw [hwWalk_window h hr hslot, hshown r hr va hslot, wanted, if_pos hva]
  cases hd : pages[page va - page HEAP_WINDOW_BASE]? with
  | none => rfl
  | some d =>
      obtain ⟨hdvd, hlt⟩ := h.frame d (List.mem_append_left _ (List.mem_of_getElem? hd))
      rw [Option.elim_some, if_pos (valid_makeEntry attrs_heapLeaf), leafPage_heap hdvd hlt]
      rfl

theorem hwWalk_device (h : Wired priv roots pages role p) {devs : List (Nat × Nat)}
    (hshown : Shown roots p.mem (wanted pages devs)) {r va : Nat} (hr : r ∈ roots)
    (hva : idx va SHIFT_512G = DEVICE_SLOT) :
    hwWalk p.mem (PAGE_SIZE * r) va = (lastDevice devs va).map devicePage := by
  have hslot : windowSlot (idx va SHIFT_512G) = true := by rw [hva]; rfl
  have hne : ¬ idx va SHIFT_512G = HEAP_SLOT := by rw [hva]; decide
  rw [hwWalk_window h hr hslot, hshown r hr va hslot, wanted, if_neg hne]
  cases lastDevice devs va with
  | none => rfl
  | some pa =>
      rw [Option.elim_some, if_pos (valid_makeEntry attrs_deviceLeaf), leafPage_device]
      rfl

/-- The kernel's own `va_to_pa` finds the frame of a heap page too. -/
theorem vaToPa_heap (h : Wired priv roots pages role p) {devs : List (Nat × Nat)}
    (hshown : Shown roots p.mem (wanted pages devs)) {r va pa : Nat} (hr : r ∈ roots)
    (hva : idx va SHIFT_512G = HEAP_SLOT) (hpa : vaToPaInRoot p.mem (PAGE_SIZE * r) va = some pa) :
    pa ∈ pages := by
  have hslot : windowSlot (idx va SHIFT_512G) = true := by rw [hva]; rfl
  have hleaf := hshown r hr va hslot
  rw [leafAt, wanted, if_pos hva] at hleaf
  rw [vaToPa_eq] at hpa
  cases hpt : walk child (tab p.mem) r (path va) with
  | none =>
      rw [hpt] at hpa
      cases hpa
  | some pt =>
      rw [hpt, Option.map_some, Option.getD_some] at hleaf
      rw [hpt, Option.bind_some, hleaf] at hpa
      cases hd : pages[page va - page HEAP_WINDOW_BASE]? with
      | none =>
          rw [hd] at hpa
          cases hpa
      | some d =>
          obtain ⟨hdvd, hlt⟩ := h.frame d (List.mem_append_left _ (List.mem_of_getElem? hd))
          rw [hd, Option.elim_some, leafOf_makeEntry attrs_heapLeaf, entryAddr_of_frame hdvd hlt] at hpa
          cases hpa
          exact List.mem_of_getElem? hd

end

end Yuva.Mmu
