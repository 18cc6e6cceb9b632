/-
# `Yuva.Heap.State` — the kernel heap's free list

`tb-hal/src/heap.rs`: an address-ordered free list with first fit, front and back
splitting and two-sided coalescing, over a static arena and a frame-backed window
that `grow` extends page by page.

The intrusive list is the list of its headers, in link order: a header is written
only at the start of a region the list owns, so following `next` from `head` reads
the list back.  Addresses are natural numbers; the checked additions of the source
test against `2^64`, and no other sum leaves that range (`fit_spec`, `required_spec`).

`map_heap_frames` is the environment.  What it grants to the grows of one `alloc` is a
list of page counts, each cut to the request; past the end of the list it grants
nothing, and `alloc` gives up.
-/
import Yuva.Lib.Machine
import Yuva.Lib.Region
import Mathlib.Tactic.Ring

namespace Yuva.Heap

open Yuva.Machine Yuva.Region

def PAGE : Nat := 4096
def GROW_CHUNK_PAGES : Nat := 256

/-- `size_of::<FreeBlock>()`. -/
def MIN_BLOCK : Nat := 16

/-- `align_of::<FreeBlock>()`. -/
def HEADER_ALIGN : Nat := 8

/-- A header: where the free region starts and how long it is. -/
abbrev FreeBlock := Region

/-- `core::alloc::Layout`, with the invariant its constructors check. -/
structure Layout where
  size : Nat
  align : Nat
  pow : ∃ k, align = 2 ^ k
  fits : size + align ≤ 2 ^ 63
  deriving DecidableEq

def alignUpChecked (addr align : Nat) : Option Nat :=
  if addr + (align - 1) < 2 ^ 64 then some (clearLow 64 align (addr + (align - 1))) else none

/-- The `(size, align)` a layout is served with. -/
def required (layout : Layout) : Option (Nat × Nat) :=
  let align := if layout.align > HEADER_ALIGN then layout.align else HEADER_ALIGN
  let raw := if layout.size > MIN_BLOCK then layout.size else MIN_BLOCK
  match alignUpChecked raw HEADER_ALIGN with
  | some size => some (size, align)
  | none => none

/-- The aligned start, moved up one step when the gap before it is too small for a header. -/
def fitStart (blockStart align : Nat) : Option Nat :=
  match alignUpChecked blockStart align with
  | none => none
  | some allocStart =>
      let front := allocStart - blockStart
      if front ≠ 0 ∧ front < MIN_BLOCK then
        if blockStart + MIN_BLOCK < 2 ^ 64 then alignUpChecked (blockStart + MIN_BLOCK) align else none
      else some allocStart

def fit (blockStart blockSize size align : Nat) : Option (Nat × Nat) :=
  match fitStart blockStart align with
  | none => none
  | some allocStart =>
      if allocStart + size < 2 ^ 64 then
        if allocStart + size > blockStart + blockSize then none
        else
          let back := blockStart + blockSize - (allocStart + size)
          if back ≠ 0 ∧ back < MIN_BLOCK then none else some (allocStart, allocStart - blockStart)
      else none

structure HeapState where
  head : List FreeBlock
  arenaStart : Nat
  arenaSize : Nat
  initialized : Bool
  used : Nat
  highWater : Nat
  windowEnabled : Bool
  windowBase : Nat
  windowNext : Nat
  windowEnd : Nat
  windowBytes : Nat
  deriving DecidableEq, Repr

/-- The walk past `prev`: the node goes before the first block that starts no lower, and is
glued to that block and then to `prev` where they abut. -/
def insertAfter (node prev : FreeBlock) : List FreeBlock → List FreeBlock
  | [] => join prev [node]
  | cur :: rest =>
      if cur.addr < node.addr then prev :: insertAfter node cur rest
      else join prev (join node (cur :: rest))

/-- `insert_free_region` on the list. -/
def insertFree (node : FreeBlock) : List FreeBlock → List FreeBlock
  | [] => [node]
  | cur :: rest => if cur.addr < node.addr then insertAfter node cur rest else join node (cur :: rest)

/-- The first block that fits, where in it, and the list with the block unlinked. -/
def firstFit (size align : Nat) : List FreeBlock → Option (FreeBlock × Nat × Nat × List FreeBlock)
  | [] => none
  | cur :: next =>
      match fit cur.addr cur.size size align with
      | some (allocStart, front) => some (cur, allocStart, front, next)
      | none =>
          match firstFit size align next with
          | some (block, allocStart, front, rest) => some (block, allocStart, front, cur :: rest)
          | none => none

namespace HeapState

def new : HeapState := ⟨[], 0, 0, false, 0, 0, false, 0, 0, 0, 0⟩

def insertFreeRegion (s : HeapState) (addr size : Nat) : HeapState :=
  { s with head := insertFree ⟨addr, size⟩ s.head }

def init (s : HeapState) (start size : Nat) : HeapState :=
  if s.initialized then s
  else
    match alignUpChecked start HEADER_ALIGN with
    | none => s
    | some aligned =>
        let lost := aligned - start
        let usable := clearLow 64 HEADER_ALIGN (size - lost)
        let s := { s with head := [], arenaStart := aligned, arenaSize := usable, used := 0,
                          highWater := 0, initialized := true }
        if usable ≥ MIN_BLOCK then s.insertFreeRegion aligned usable else s

/-- A gap left beside a payload goes back to the list, unless it is empty. -/
def giveBack (s : HeapState) (addr size : Nat) : HeapState :=
  if size ≠ 0 then s.insertFreeRegion addr size else s

def tryFit (s : HeapState) (size align : Nat) : Option (Nat × HeapState) :=
  match firstFit size align s.head with
  | none => none
  | some (block, allocStart, front, rest) =>
      let s := { s with head := rest }
      let s := s.giveBack block.addr front
      let back := block.addr + block.size - (allocStart + size)
      let s := s.giveBack (allocStart + size) back
      let used := s.used + size
      some (allocStart, { s with used := used, highWater := if used > s.highWater then used else s.highWater })

def windowInit (s : HeapState) (base size : Nat) : HeapState :=
  if s.windowEnabled then s
  else { s with windowBase := base, windowNext := base, windowEnd := satU 64 (base + size),
                windowBytes := 0, windowEnabled := true }

/-- How many pages a grow asks for. -/
def requestPages (s : HeapState) (minBytes : Nat) : Nat :=
  let needPages := (minBytes + PAGE - 1) / PAGE
  let wantPages := if needPages > GROW_CHUNK_PAGES then needPages else GROW_CHUNK_PAGES
  let roomPages := (s.windowEnd - s.windowNext) / PAGE
  if wantPages > roomPages then roomPages else wantPages

/-- Hand the next `mapped` pages of the window to the free list. -/
def donatePages (s : HeapState) (mapped : Nat) : HeapState :=
  let bytes := mapped * PAGE
  let region := s.windowNext
  let s := { s with windowNext := s.windowNext + bytes, windowBytes := s.windowBytes + bytes }
  s.insertFreeRegion region bytes

/-- One grow, granted `grant` pages at most; `none` when it makes no progress. -/
def grow (s : HeapState) (minBytes grant : Nat) : Option HeapState :=
  if s.windowEnabled = false then none
  else if s.windowEnd - s.windowNext < PAGE then none
  else
    let reqPages := s.requestPages minBytes
    if reqPages = 0 then none
    else
      let mapped := min grant reqPages
      if mapped = 0 then none else some (s.donatePages mapped)

/-- The loop of `alloc`, over what the environment grants. -/
def allocLoop (s : HeapState) (size align : Nat) : List Nat → Option Nat × HeapState
  | [] =>
      match s.tryFit size align with
      | some (ptr, s) => (some ptr, s)
      | none => (none, s)
  | grant :: grants =>
      match s.tryFit size align with
      | some (ptr, s) => (some ptr, s)
      | none =>
          match s.grow size grant with
          | some s => allocLoop s size align grants
          | none => (none, s)

def alloc (s : HeapState) (layout : Layout) (grants : List Nat) : Option Nat × HeapState :=
  match required layout with
  | none => (none, s)
  | some (size, align) => s.allocLoop size align grants

def dealloc (s : HeapState) (ptr : Nat) (layout : Layout) : HeapState :=
  if ptr = 0 then s
  else
    match required layout with
    | none => s
    | some (size, _) =>
        let s := s.insertFreeRegion ptr size
        { s with used := s.used - size }

end HeapState

/-! ## Rounding and fitting -/

theorem HEADER_ALIGN_eq : HEADER_ALIGN = 2 ^ 3 := rfl

theorem alignUpChecked_spec {addr k a : Nat} (hk : k ≤ 64) (h : alignUpChecked addr (2 ^ k) = some a) :
    addr ≤ a ∧ a < addr + 2 ^ k ∧ 2 ^ k ∣ a := by
  rw [alignUpChecked] at h
  split at h
  · next hlt =>
      rw [clearLow_pow hlt hk, Option.some.injEq] at h
      subst h
      have hpos := Nat.two_pow_pos k
      have hdiv := Nat.div_add_mod (addr + (2 ^ k - 1)) (2 ^ k)
      have hmod := Nat.mod_lt (addr + (2 ^ k - 1)) hpos
      rw [Nat.mul_comm] at hdiv
      exact ⟨by omega, by omega, Nat.dvd_mul_left _ _⟩
  · cases h

theorem alignUpChecked_of_dvd {addr k : Nat} (hk : k ≤ 64) (hdvd : 2 ^ k ∣ addr)
    (hfits : addr + (2 ^ k - 1) < 2 ^ 64) : alignUpChecked addr (2 ^ k) = some addr := by
  obtain ⟨m, rfl⟩ := hdvd
  have hlt : 2 ^ k - 1 < 2 ^ k := Nat.sub_lt (Nat.two_pow_pos k) Nat.one_pos
  rw [alignUpChecked, if_pos hfits, clearLow_pow hfits hk, Nat.mul_add_div (Nat.two_pow_pos k),
    Nat.div_eq_of_lt hlt, Nat.add_zero, Nat.mul_comm]

/-- Normalised sizes are whole headers, at least one; alignments are powers of two that
header alignment divides, and satisfy the request. -/
theorem required_spec {layout : Layout} {size align : Nat} (h : required layout = some (size, align)) :
    MIN_BLOCK ≤ size ∧ layout.size ≤ size ∧ HEADER_ALIGN ∣ size ∧
      (∃ k, k ≤ 63 ∧ 3 ≤ k ∧ align = 2 ^ k) ∧ layout.align ∣ align := by
  obtain ⟨j, hj⟩ := layout.pow
  have hfits := layout.fits
  have hj63 : j ≤ 63 := by
    by_contra hlt
    have hpow : 2 ^ 64 ≤ 2 ^ j := Nat.pow_le_pow_right (by decide) (by omega)
    omega
  simp only [required] at h
  split at h
  · next rounded hround =>
      rw [Option.some.injEq, Prod.mk.injEq] at h
      obtain ⟨rfl, rfl⟩ := h
      obtain ⟨hle, -, hdvd⟩ := alignUpChecked_spec (by decide) (HEADER_ALIGN_eq ▸ hround)
      refine ⟨?_, ?_, hdvd, ?_, ?_⟩
      · refine Nat.le_trans ?_ hle
        split <;> omega
      · refine Nat.le_trans ?_ hle
        split <;> omega
      · split
        · next hgt =>
            refine ⟨j, hj63, ?_, hj⟩
            by_contra hlt
            have hpow : 2 ^ j ≤ 2 ^ 2 := Nat.pow_le_pow_right (by decide) (by omega)
            rw [hj, HEADER_ALIGN_eq] at hgt
            omega
        · exact ⟨3, by decide, Nat.le_refl _, rfl⟩
      · split
        · exact Nat.dvd_refl _
        · next hle =>
            rw [hj, HEADER_ALIGN_eq] at hle ⊢
            exact Nat.pow_dvd_pow 2 ((Nat.pow_le_pow_iff_right (by decide)).mp (Nat.le_of_not_lt hle))
  · cases h

theorem required_isSome (layout : Layout) : (required layout).isSome := by
  have hfits := layout.fits
  have hraw : (if layout.size > MIN_BLOCK then layout.size else MIN_BLOCK) + (HEADER_ALIGN - 1) < 2 ^ 64 := by
    rw [MIN_BLOCK, HEADER_ALIGN]
    split <;> omega
  simp only [required, alignUpChecked, if_pos hraw, Option.isSome_some]

/-- The places a request may get in a block: aligned, inside, and with gaps on either side
that are empty or long enough for a header. -/
theorem fitStart_spec {start k a : Nat} (hk : k ≤ 63) (h : fitStart start (2 ^ k) = some a) :
    start ≤ a ∧ 2 ^ k ∣ a ∧ (a = start ∨ start + MIN_BLOCK ≤ a) := by
  rw [fitStart] at h
  split at h
  · cases h
  · next b hb =>
      obtain ⟨hle, -, hdvd⟩ := alignUpChecked_spec (by omega) hb
      dsimp only at h
      split at h
      · split at h
        · obtain ⟨hle', -, hdvd'⟩ := alignUpChecked_spec (by omega) h
          exact ⟨by omega, hdvd', .inr hle'⟩
        · cases h
      · next hgap =>
          rw [Option.some.injEq] at h
          subst h
          exact ⟨hle, hdvd, by omega⟩

theorem fit_spec {start bsize size k a front : Nat} (hk : k ≤ 63)
    (h : fit start bsize size (2 ^ k) = some (a, front)) :
    a = start + front ∧ 2 ^ k ∣ a ∧ (front = 0 ∨ MIN_BLOCK ≤ front) ∧ a + size ≤ start + bsize ∧
      (start + bsize - (a + size) = 0 ∨ MIN_BLOCK ≤ start + bsize - (a + size)) := by
  rw [fit] at h
  split at h
  · cases h
  · next b hb =>
      obtain ⟨hle, hdvd, hgap⟩ := fitStart_spec hk hb
      split at h
      · split at h
        · cases h
        · dsimp only at h
          split at h
          · cases h
          · next hin hback =>
              rw [Option.some.injEq, Prod.mk.injEq] at h
              obtain ⟨rfl, rfl⟩ := h
              exact ⟨by omega, hdvd, by omega, by omega, by omega⟩
      · cases h

/-- First fit takes one block out of the list and leaves the rest in order. -/
theorem firstFit_spec {size align a front : Nat} {block : FreeBlock} {free rest : List FreeBlock}
    (h : firstFit size align free = some (block, a, front, rest)) :
    fit block.addr block.size size align = some (a, front) ∧
      free.Perm (block :: rest) ∧ rest.Sublist free := by
  induction free generalizing rest with
  | nil => cases h
  | cons cur next ih =>
      rw [firstFit] at h
      split at h
      · next hfit =>
          simp only [Option.some.injEq, Prod.mk.injEq] at h
          obtain ⟨rfl, rfl, rfl, rfl⟩ := h
          exact ⟨hfit, .refl _, List.sublist_cons_self _ _⟩
      · split at h
        · next hnext =>
            simp only [Option.some.injEq, Prod.mk.injEq] at h
            obtain ⟨rfl, rfl, rfl, rfl⟩ := h
            obtain ⟨hfit, hperm, hsub⟩ := ih hnext
            exact ⟨hfit, (hperm.cons cur).trans (.swap _ _ _), hsub.cons_cons cur⟩
        · cases h

/-! ## Inserting a region -/

theorem weight_insertAfter (node prev : FreeBlock) (rest : List FreeBlock) (x : Nat) :
    weight (insertAfter node prev rest) x = node.unit x + weight (prev :: rest) x := by
  induction rest generalizing prev with
  | nil =>
      rw [insertAfter, weight_join, weight_cons, weight_cons]
      omega
  | cons cur rest ih =>
      rw [insertAfter]
      split
      · rw [weight_cons, ih, weight_cons prev]
        omega
      · rw [weight_join, weight_join, weight_cons prev]
        omega

/-- Inserting moves no byte: the list holds what it held and the new region. -/
theorem weight_insertFree (node : FreeBlock) (free : List FreeBlock) (x : Nat) :
    weight (insertFree node free) x = node.unit x + weight free x := by
  cases free with
  | nil => rfl
  | cons cur rest =>
      rw [insertFree]
      split
      · exact weight_insertAfter node cur rest x
      · exact weight_join node (cur :: rest) x

/-- What a free block must be: header-aligned, whole headers long, and room for one. -/
structure Headed (b : FreeBlock) : Prop where
  addr : HEADER_ALIGN ∣ b.addr
  size : HEADER_ALIGN ∣ b.size
  room : MIN_BLOCK ≤ b.size

theorem Headed.pos {b : FreeBlock} (h : Headed b) : 0 < b.size := Nat.lt_of_lt_of_le (by decide) h.room

theorem Headed.glue (b c : FreeBlock) (hb : Headed b) (hc : Headed c) (_ : b.stop = c.addr) :
    Headed ⟨b.addr, b.size + c.size⟩ :=
  ⟨hb.addr, Nat.dvd_add hb.size hc.size, Nat.le_trans hb.room (Nat.le_add_right _ _)⟩

theorem headed_insertAfter {node prev : FreeBlock} {rest : List FreeBlock} (hnode : Headed node)
    (hprev : Headed prev) (hrest : ∀ b ∈ rest, Headed b) : ∀ b ∈ insertAfter node prev rest, Headed b := by
  induction rest generalizing prev with
  | nil =>
      refine join_forall Headed.glue hprev ?_
      intro b hb
      rwa [List.mem_singleton.mp hb]
  | cons cur rest ih =>
      rw [insertAfter]
      split
      · intro b hb
        rcases List.mem_cons.mp hb with rfl | hb
        · exact hprev
        · exact ih (hrest cur List.mem_cons_self) (fun c hc => hrest c (List.mem_cons_of_mem cur hc)) b hb
      · exact join_forall Headed.glue hprev (join_forall Headed.glue hnode hrest)

theorem headed_insertFree {node : FreeBlock} {free : List FreeBlock} (hnode : Headed node)
    (hfree : ∀ b ∈ free, Headed b) : ∀ b ∈ insertFree node free, Headed b := by
  cases free with
  | nil =>
      intro b hb
      rwa [List.mem_singleton.mp hb]
  | cons cur rest =>
      rw [insertFree]
      split
      · exact headed_insertAfter hnode (hfree cur List.mem_cons_self)
          fun b hb => hfree b (List.mem_cons_of_mem cur hb)
      · exact join_forall Headed.glue hnode hfree

/-- Past `prev`, the walk keeps the order, and nothing it writes starts below `prev`. -/
theorem ascending_insertAfter {node prev : FreeBlock} {rest : List FreeBlock}
    (hasc : Ascending (prev :: rest)) (hpos : ∀ b ∈ prev :: rest, 0 < b.size) (hnode : 0 < node.size)
    (hdisj : ∀ b ∈ prev :: rest, b.Disjoint node) (hlt : prev.addr < node.addr) :
    Ascending (insertAfter node prev rest) ∧ ∀ b ∈ insertAfter node prev rest, prev.addr ≤ b.addr := by
  induction rest generalizing prev with
  | nil =>
      have hstop := stop_le_of_disjoint (hdisj prev List.mem_cons_self) (Nat.le_of_lt hlt) hnode
      have hbelow : ∀ b ∈ [node], prev.stop ≤ b.addr := by
        intro b hb
        rwa [List.mem_singleton.mp hb]
      refine ⟨ascending_join (List.pairwise_singleton _ _) hbelow ?_, join_addr_le hbelow⟩
      intro b hb
      rwa [List.mem_singleton.mp hb]
  | cons cur rest ih =>
      obtain ⟨hprev, hasc'⟩ := List.pairwise_cons.mp hasc
      have hpos' := fun b hb => hpos b (List.mem_cons_of_mem prev hb)
      have hdisj' := fun b hb => hdisj b (List.mem_cons_of_mem prev hb)
      rw [insertAfter]
      split
      · next hcur =>
          obtain ⟨hrec, hge⟩ := ih hasc' hpos' hdisj' hcur
          have hbefore := hprev cur List.mem_cons_self
          refine ⟨List.pairwise_cons.mpr ⟨fun b hb => Nat.lt_of_lt_of_le hbefore (hge b hb), hrec⟩, ?_⟩
          intro b hb
          rcases List.mem_cons.mp hb with rfl | hb
          · exact Nat.le_refl _
          · have := hge b hb
            simp only [Before, stop] at hbefore
            omega
      · next hcur =>
          have hnodestop := stop_le_ascending hasc' hpos' hdisj' (Nat.le_of_not_lt hcur)
          have hjoined : ∀ b ∈ join node (cur :: rest), prev.stop ≤ b.addr := fun b hb =>
            Nat.le_trans (stop_le_of_disjoint (hdisj prev List.mem_cons_self) (Nat.le_of_lt hlt) hnode)
              (join_addr_le hnodestop b hb)
          refine ⟨ascending_join (ascending_join hasc' hnodestop hpos') hjoined ?_, join_addr_le hjoined⟩
          exact join_forall (fun b c hb _ _ => Nat.lt_of_lt_of_le hb (Nat.le_add_right _ _)) hnode hpos'

/-- Inserting a region that shares no byte with the list keeps the list ascending, with no
two blocks touching. -/
theorem ascending_insertFree {node : FreeBlock} {free : List FreeBlock} (hasc : Ascending free)
    (hpos : ∀ b ∈ free, 0 < b.size) (hnode : 0 < node.size) (hdisj : ∀ b ∈ free, b.Disjoint node) :
    Ascending (insertFree node free) := by
  cases free with
  | nil => exact List.pairwise_singleton _ _
  | cons cur rest =>
      rw [insertFree]
      split
      · next hlt => exact (ascending_insertAfter hasc hpos hnode hdisj hlt).1
      · next hge =>
          exact ascending_join hasc (stop_le_ascending hasc hpos hdisj (Nat.le_of_not_lt hge)) hpos

end Yuva.Heap
