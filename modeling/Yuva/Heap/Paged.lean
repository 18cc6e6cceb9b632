/-
# `Yuva.Heap.Paged` — the heap on its page tables

`tb-hal/src/heap.rs` over `tb-hal/src/arch/x86_64/mmu.rs`: here `grow` maps its pages with
`map_heap_frames` under the live root, and takes the frames from the allocator everybody else
takes them from.  `Yuva.Heap.Run` leaves the pages granted to a grow open; every run here is one
of its runs (`grow_eq`), and what is proved there holds here.

One state holds the frames, the tables, the address spaces and the heap.  Anybody may act in
between: spaces are made as copies of the live root and switched to, private pages are mapped and
unmapped in any root, device pages are mapped, frames leave the allocator and come back, memory
outside the tables is written, and the heap's clients write what they hold through the window.

    pages     the frames behind the heap window, in the order of its pages
    Ordered   a space is made only once both windows are open in the live root

The last is the one condition on runs: a space made earlier is a copy that lacks the window's
top entry, and later windows do not reach it (`tb-hal/src/lib.rs` says so of its own order).

**Proved here.**  Every root translates the windows alike, page `j` of the heap window to frame
`j`, for good (`windows_shared`); the heap's bytes in the window have physical bytes of their own
(`blocks_backed`); and an allocation fails for want of frames or of window only (`alloc_null`).
-/
import Yuva.Heap.Fit
import Yuva.Mmu.Window

namespace Yuva.Heap.Paged

open Yuva.Machine Yuva.Region Yuva.Run Yuva.Radix Yuva.Mmu

/-- The kernel before its heap gets the window: the boot root leaves both windows vacant. -/
structure Start extends Boot where
  place : Place
  granted : place.window = ⟨heapWindow.1, heapWindow.2⟩
  vacant : ∀ i, windowSlot i = true → toBoot.priv i = true

theorem Start.window (b : Start) : b.place.window = ⟨HEAP_WINDOW_BASE, HEAP_WINDOW_SIZE⟩ := b.granted

structure Kernel where
  phys : Phys
  live : Nat
  roots : List Nat
  used : List Nat
  devs : List (Nat × Nat)
  heap : World

inductive Op where
  | newSpace
  | switchRoot (r : Nat)
  | map (r va pa : Nat) (writable : Bool)
  | mapUser (r va pa : Nat) (writable exec : Bool)
  | unmap (r va : Nat)
  | device (va pa : Nat)
  | windowInit
  | alloc (layout : Layout)
  | dealloc (ptr : Nat) (layout : Layout)
  | take
  | refill (frames : List Nat)
  | poke (addr val : Nat)
  | store (va val : Nat)

/-! ## The heap's calls -/

/-- `grow`: the next state unless there was no progress, and the tables. -/
def grow (s : HeapState) (p : Phys) (pml4 minBytes : Nat) : Option HeapState × Phys :=
  if s.windowEnabled = false then (none, p)
  else if s.windowEnd - s.windowNext < PAGE then (none, p)
  else
    let reqPages := s.requestPages minBytes
    if reqPages = 0 then (none, p)
    else
      let (mapped, p) := p.mapHeapFrames pml4 s.windowNext reqPages
      if mapped = 0 then (none, p) else (some (s.donatePages mapped), p)

/-- The loop of `alloc`; `none` while it has not returned. -/
def allocTurns (size align pml4 : Nat) : Nat → HeapState → Phys → Option (Option Nat × HeapState × Phys)
  | 0, _, _ => none
  | n + 1, s, p =>
      match s.tryFit size align with
      | some (ptr, s) => some (some ptr, s, p)
      | none =>
          match grow s p pml4 size with
          | (some s, p) => allocTurns size align pml4 n s p
          | (none, p) => some (none, s, p)

/-- Every turn but the last maps a page of the window, so the loop has that many turns at most. -/
def alloc (s : HeapState) (p : Phys) (pml4 : Nat) (layout : Layout) : Option Nat × HeapState × Phys :=
  match required layout with
  | none => (none, s, p)
  | some (size, align) => (allocTurns size align pml4 (s.pagesLeft + 1) s p).getD (none, s, p)

/-! ## The machine -/

namespace Kernel

def after (s : Kernel) (p : Phys) : Kernel := { s with phys := p, used := usedAfter s.used s.phys p }

/-- A page-aligned address in a private slot, of a root that is there. -/
def Private (b : Start) (s : Kernel) (r va : Nat) : Prop :=
  r ∈ s.roots ∧ b.toBoot.Private va ∧ windowSlot (idx va SHIFT_512G) = false

instance (b : Start) (s : Kernel) (r va : Nat) : Decidable (s.Private b r va) := inferInstanceAs (Decidable (_ ∧ _))

/-- Frames nobody uses, none of them twice. -/
def Unused (s : Kernel) (frames : List Nat) : Prop :=
  (frames ++ s.phys.free).Nodup ∧ ∀ f ∈ frames, PAGE_SIZE ∣ f ∧ f < 2 ^ 48 ∧ f / PAGE_SIZE ∉ s.used

instance (s : Kernel) (frames : List Nat) : Decidable (s.Unused frames) := inferInstanceAs (Decidable (_ ∧ _))

/-- An address of the heap window, as far as it is mapped. -/
def InWindow (s : Kernel) (va : Nat) : Prop :=
  s.heap.heap.windowEnabled = true ∧ HEAP_WINDOW_BASE ≤ va ∧ va < s.heap.heap.windowNext

instance (s : Kernel) (va : Nat) : Decidable (s.InWindow va) := inferInstanceAs (Decidable (_ ∧ _))

def step (b : Start) (s : Kernel) : Op → Kernel
  | .newSpace =>
      match s.phys.addressSpaceNew (PAGE_SIZE * s.live) with
      | (none, p) => s.after p
      | (some root, p) => { s.after p with roots := root / PAGE_SIZE :: s.roots }
  | .switchRoot r => if r ∈ s.roots then { s with live := r } else s
  | .map r va pa writable =>
      if s.Private b r va then s.after (s.phys.mapInRoot (PAGE_SIZE * r) va pa writable).2 else s
  | .mapUser r va pa writable exec =>
      if s.Private b r va then s.after (s.phys.mapUserInRoot (PAGE_SIZE * r) va pa writable exec).2 else s
  | .unmap r va => if s.Private b r va then s.after (s.phys.unmapInRoot (PAGE_SIZE * r) va).2 else s
  | .device va pa =>
      if PAGE_SIZE ∣ va ∧ idx va SHIFT_512G = DEVICE_SLOT then
        match s.phys.mapDevicePage (PAGE_SIZE * s.live) va pa with
        | (false, p) => s.after p
        | (true, p) => { s.after p with devs := (va, pa) :: s.devs }
      else s
  | .windowInit => { s with heap := Heap.step b.place s.heap .windowInit }
  | .alloc layout =>
      match alloc s.heap.heap s.phys (PAGE_SIZE * s.live) layout with
      | (some ptr, heap, p) => { s.after p with heap := ⟨heap, (ptr, layout) :: s.heap.live⟩ }
      | (none, heap, p) => { s.after p with heap := ⟨heap, s.heap.live⟩ }
  | .dealloc ptr layout => { s with heap := Heap.step b.place s.heap (.dealloc ptr layout) }
  | .take =>
      match s.phys.frameAlloc with
      | none => s
      | some (_, p) => { s with phys := p }
  | .refill frames => if s.Unused frames then { s with phys := { s.phys with free := frames ++ s.phys.free } } else s
  | .poke addr val => if addr / PAGE_SIZE ∉ s.used then { s with phys := s.phys.write addr val } else s
  | .store va val =>
      if s.InWindow va then
        match vaToPaInRoot s.phys.mem (PAGE_SIZE * s.live) va with
        | none => s
        | some pa => { s with phys := s.phys.write (pa + va % PAGE_SIZE) val }
      else s

/-- A space is made once both windows are open in the live root. -/
def Ordered (s : Kernel) : Op → Prop
  | .newSpace => ∀ i, windowSlot i = true → entryIsValid (tab s.phys.mem s.live i) = true
  | _ => True

end Kernel

instance (s : Kernel) : ∀ op, Decidable (s.Ordered op)
  | .newSpace => inferInstanceAs (Decidable (∀ i, windowSlot i = true → entryIsValid (tab s.phys.mem s.live i) = true))
  | .switchRoot _ | .map .. | .mapUser .. | .unmap .. | .device .. | .windowInit | .alloc _ | .dealloc .. | .take
  | .refill _ | .poke .. | .store .. => inferInstanceAs (Decidable True)

def Start.kernel (b : Start) : Kernel := ⟨b.phys, b.cr3, [b.cr3], [b.cr3], [], boot b.place⟩

def Start.run (b : Start) (ops : List Op) : Kernel := exec (Kernel.step b) b.kernel ops

/-! ## What the heap's calls do -/

section
variable {b : Start} {roots pages : List Nat} {devs : List (Nat × Nat)} {role : Nat → Option Role}
  {live : List (Nat × Layout)} {s t : HeapState} {p : Phys}

/-- The heap, its clients and the tables agree on how far the window is mapped, and by which frames. -/
structure Tied (b : Start) (roots : List Nat) (devs : List (Nat × Nat)) (live : List (Nat × Layout)) (pages : List Nat)
    (role : Nat → Option Role) (s : HeapState) (p : Phys) : Prop where
  wired : Wired b.priv roots pages role p
  shown : Shown roots p.mem (wanted pages devs)
  heap : Heap.Inv b.place ⟨s, live⟩
  off : s.windowEnabled = false → pages = []
  next : s.windowEnabled = true → s.windowNext = heapPageVa pages.length

/-- A grow can go no further: there is no window, no room in it, or no frame. -/
def Stuck (s : HeapState) (p : Phys) : Prop :=
  s.windowEnabled = false ∨ s.windowEnd - s.windowNext < PAGE ∨ p.free = []

theorem heapPageVa_add (k n : Nat) : heapPageVa (k + n) = heapPageVa k + n * PAGE := by
  rw [heapPageVa, heapPageVa, Nat.add_mul, Nat.add_assoc]
  rfl

theorem requestPages_spec {m : Nat} (hroom : ¬ s.windowEnd - s.windowNext < PAGE) :
    0 < s.requestPages m ∧ s.windowNext + s.requestPages m * PAGE ≤ s.windowEnd := by
  have hwant : 0 < if (m + PAGE - 1) / PAGE > GROW_CHUNK_PAGES then (m + PAGE - 1) / PAGE else GROW_CHUNK_PAGES := by
    split
    · next hgt => exact Nat.lt_of_le_of_lt (Nat.zero_le _) hgt
    · decide
  rw [HeapState.requestPages]
  generalize (if (m + PAGE - 1) / PAGE > GROW_CHUNK_PAGES then (m + PAGE - 1) / PAGE else GROW_CHUNK_PAGES) = want
    at hwant
  by_cases hbig : want > (s.windowEnd - s.windowNext) / PAGE
  · rw [if_pos hbig]
    simp only [PAGE] at hroom ⊢
    omega
  · rw [if_neg hbig]
    simp only [PAGE] at hroom hbig ⊢
    omega

/-- The grow mapped `ds`, and is the one the heap's own model makes when granted as many pages. -/
theorem grow_spec {r : Nat} (hr : r ∈ roots) (h : Tied b roots devs live pages role s p) (minBytes : Nat) :
    ∃ ds role', Grows b.priv roots pages role p (pages ++ ds) role' (grow s p (PAGE_SIZE * r) minBytes).2 ∧
      Tied b roots devs live (pages ++ ds) role' ((grow s p (PAGE_SIZE * r) minBytes).1.getD s)
        (grow s p (PAGE_SIZE * r) minBytes).2 ∧
      (grow s p (PAGE_SIZE * r) minBytes).1 = s.grow minBytes ds.length ∧
      ((grow s p (PAGE_SIZE * r) minBytes).1 = none → Stuck s (grow s p (PAGE_SIZE * r) minBytes).2) := by
  have hstill : ∀ hnone : s.grow minBytes 0 = none, Stuck s p →
      ∃ ds role', Grows b.priv roots pages role p (pages ++ ds) role' p ∧
        Tied b roots devs live (pages ++ ds) role' (Option.getD none s) p ∧ none = s.grow minBytes ds.length ∧
        ((none : Option HeapState) = none → Stuck s p) := by
    intro hnone hstuck
    refine ⟨[], role, ?_, ?_, hnone.symm, fun _ => hstuck⟩
    · rw [List.append_nil]
      exact Grows.refl h.wired
    · rw [List.append_nil]
      exact h
  rw [grow]
  by_cases henabled : s.windowEnabled = false
  · rw [if_pos henabled]
    exact hstill (by rw [HeapState.grow, if_pos henabled]) (.inl henabled)
  rw [if_neg henabled]
  by_cases hroom : s.windowEnd - s.windowNext < PAGE
  · rw [if_pos hroom]
    exact hstill (by rw [HeapState.grow, if_neg henabled, if_pos hroom]) (.inr (.inl hroom))
  rw [if_neg hroom]
  dsimp only
  have hon : s.windowEnabled = true := by rwa [Bool.not_eq_false] at henabled
  obtain ⟨hpos, hend⟩ := requestPages_spec (m := minBytes) hroom
  rw [if_neg (Nat.pos_iff_ne_zero.mp hpos)]
  have hfits : pages.length + s.requestPages minBytes ≤ 2 ^ 18 := by
    rw [h.heap.window.stop hon, b.window, h.next hon, heapPageVa, stop] at hend
    simp only [HEAP_WINDOW_SIZE, PAGE_SIZE, PAGE] at hend
    omega
  obtain ⟨ds, role', hcount, hle, hg, hshown, hfree⟩ :=
    heapFramesFrom_spec hr (s.requestPages minBytes) h.wired h.shown
      (show s.windowNext + 0 * PAGE_SIZE = _ by rw [Nat.zero_mul, Nat.add_zero, h.next hon]) hfits
  rw [Phys.mapHeapFrames]
  generalize Phys.heapFramesFrom (PAGE_SIZE * r) s.windowNext 0 (s.requestPages minBytes) p = res
    at hcount hg hshown hfree
  obtain ⟨mapped, p'⟩ := res
  rw [Nat.zero_add] at hcount
  dsimp only at hcount hg hshown hfree ⊢
  subst hcount
  have hgrant : s.grow minBytes ds.length = if ds.length = 0 then none else some (s.donatePages ds.length) := by
    rw [HeapState.grow, if_neg henabled, if_neg hroom]
    dsimp only
    rw [if_neg (Nat.pos_iff_ne_zero.mp hpos), Nat.min_eq_left hle]
  by_cases hzero : ds.length = 0
  · obtain rfl := List.eq_nil_of_length_eq_zero hzero
    rw [if_pos hzero] at hgrant ⊢
    refine ⟨[], role', hg, ⟨hg.wired, hshown, h.heap, ?_, ?_⟩, hgrant.symm, fun _ => .inr (.inr (hfree hpos))⟩
    · rw [List.append_nil]
      exact h.off
    · rw [List.append_nil]
      exact h.next
  · rw [if_neg hzero] at hgrant ⊢
    refine ⟨ds, role', hg, ⟨hg.wired, hshown, h.heap.grow hgrant, ?_, ?_⟩, hgrant.symm, fun hno => by cases hno⟩
    · intro hoff
      exact absurd (hon.symm.trans hoff) (by decide)
    · intro _
      rw [List.length_append]
      exact (congrArg (· + ds.length * PAGE) (h.next hon)).trans (heapPageVa_add _ _).symm

theorem Tied.remap {role' : Nat → Option Role} {p' : Phys} (h : Tied b roots devs live pages role s p)
    (hw : Wired b.priv roots pages role' p') (hs : SameLeaves roots p.mem p'.mem) :
    Tied b roots devs live pages role' s p' :=
  ⟨hw, h.shown.same hs, h.heap, h.off, h.next⟩

/-- The loop of `alloc` returns, as the heap's own does when granted what the grows mapped, and it
returns null only when nothing fits and no grow goes further. -/
theorem allocTurns_spec {r : Nat} (hr : r ∈ roots) {layout : Layout} {size align : Nat}
    (hreq : required layout = some (size, align)) :
    ∀ (n : Nat) {pages : List Nat} {role : Nat → Option Role} {s : HeapState} {p : Phys},
      Tied b roots devs live pages role s p → s.pagesLeft < n →
      ∃ res t p' ds role', allocTurns size align (PAGE_SIZE * r) n s p = some (res, t, p') ∧
        Grows b.priv roots pages role p (pages ++ ds) role' p' ∧
        Tied b roots devs ((res.map fun ptr => (ptr, layout)).toList ++ live) (pages ++ ds) role' t p' ∧
        (∃ grants, s.allocLoop size align grants = (res, t)) ∧
        (res = none → t.tryFit size align = none ∧ Stuck t p') := by
  intro n
  induction n with
  | zero => exact fun _ hlt => absurd hlt (Nat.not_lt_zero _)
  | succ n ih =>
      intro pages role s p h hlt
      rw [allocTurns]
      cases hfit : s.tryFit size align with
      | some out =>
          obtain ⟨ptr, t⟩ := out
          have htake := h.heap.take hreq hfit
          obtain ⟨-, -, hdvd, ⟨k, hk, hk3, rfl⟩, -⟩ := required_spec hreq
          obtain ⟨-, -, -, hsame, -⟩ :=
            HeapState.tryFit_spec hk hk3 hdvd h.heap.fine (fun x => by have := h.heap.one x; omega) hfit
          refine ⟨some ptr, t, p, [], role, rfl, ?_, ⟨?_, ?_, htake, ?_, ?_⟩, ⟨[], ?_⟩, fun hno => by cases hno⟩
          · rw [List.append_nil]
            exact Grows.refl h.wired
          · rw [List.append_nil]
            exact h.wired
          · rw [List.append_nil]
            exact h.shown
          · rw [List.append_nil, hsame.windowEnabled]
            exact h.off
          · rw [List.append_nil, hsame.windowEnabled, hsame.windowNext]
            exact h.next
          · rw [HeapState.allocLoop, hfit]
      | none =>
          obtain ⟨ds, role', hg, ht, heq, hstuck⟩ := grow_spec hr h size
          generalize grow s p (PAGE_SIZE * r) size = out at hg ht heq hstuck
          obtain ⟨o, p'⟩ := out
          dsimp only at hg ht heq hstuck
          cases o with
          | none =>
              refine ⟨none, s, p', ds, role', rfl, hg, ht, ⟨[ds.length], ?_⟩, fun _ => ⟨hfit, hstuck rfl⟩⟩
              rw [HeapState.allocLoop, hfit, ← heq]
          | some t =>
              have hless := HeapState.pagesLeft_grow heq.symm
              obtain ⟨res, u, p'', ds', role'', hloop, hg', ht', ⟨grants, hrun⟩, hnull⟩ := ih ht (s := t) (by omega)
              rw [List.append_assoc] at hg' ht'
              refine ⟨res, u, p'', ds ++ ds', role'', hloop, hg.trans hg', ht', ⟨ds.length :: grants, ?_⟩, hnull⟩
              rw [HeapState.allocLoop, hfit, ← heq]
              exact hrun

theorem alloc_spec {r : Nat} (hr : r ∈ roots) (h : Tied b roots devs live pages role s p) (layout : Layout) :
    ∃ res t p' ds role', alloc s p (PAGE_SIZE * r) layout = (res, t, p') ∧
      Grows b.priv roots pages role p (pages ++ ds) role' p' ∧
      Tied b roots devs ((res.map fun ptr => (ptr, layout)).toList ++ live) (pages ++ ds) role' t p' ∧
      (∃ grants, s.alloc layout grants = (res, t)) ∧
      (res = none → ∃ size align, required layout = some (size, align) ∧ t.tryFit size align = none ∧ Stuck t p') := by
  obtain ⟨⟨size, align⟩, hreq⟩ := Option.isSome_iff_exists.mp (required_isSome layout)
  obtain ⟨res, t, p', ds, role', hloop, hg, ht, ⟨grants, hrun⟩, hnull⟩ :=
    allocTurns_spec hr hreq _ h (Nat.lt_succ_self _)
  refine ⟨res, t, p', ds, role', ?_, hg, ht, ⟨grants, ?_⟩, fun hno => ⟨size, align, hreq, hnull hno⟩⟩
  · rw [alloc, hreq]
    dsimp only
    rw [hloop]
    rfl
  · rw [HeapState.alloc, hreq]
    exact hrun

end

/-! ## The invariant -/

/-- `pages` are the frames behind the window, `role` the typing of the tables. -/
structure Inv (b : Start) (s : Kernel) (pages : List Nat) (role : Nat → Option Role) : Prop where
  tied : Tied b s.roots s.devs s.heap.live pages role s.heap.heap s.phys
  used : ∀ n, n ∈ s.used ↔ Held pages role n
  live : s.live ∈ s.roots

section
variable {b : Start} {s : Kernel} {pages : List Nat} {role : Nat → Option Role}

theorem window_init (s : HeapState) (start size : Nat) : (s.init start size).windowEnabled = s.windowEnabled := by
  rw [HeapState.init]
  split
  · rfl
  · split
    · rfl
    · dsimp only
      split <;> rfl

theorem inv_start (b : Start) : Inv b b.kernel [] (fun n => if n = b.cr3 then some .root else none) := by
  have hrole : ∀ {n ρ}, (if n = b.cr3 then some Role.root else none) = some ρ → n = b.cr3 ∧ ρ = .root := by
    intro n ρ hn
    split at hn
    · next heq => exact ⟨heq, (Option.some.inj hn).symm⟩
    · cases hn
  have hvacant : ∀ i, b.priv i = true → child (tab b.phys.mem b.cr3 i) = none := by
    intro i hi
    rw [Boot.priv, Bool.not_eq_true'] at hi
    rw [child, hi]
    rfl
  have hfollowed : ∀ i ρ, follows b.priv .root i = some ρ → child (tab b.phys.mem b.cr3 i) = none := by
    intro i ρ hi
    rw [follows] at hi
    split at hi
    · next hslot => exact hvacant i (b.vacant i hslot)
    · split at hi
      · next hpriv => exact hvacant i hpriv
      · cases hi
  refine ⟨⟨⟨b.nodup, ?_, ?_, ?_, ?_, ?_, ?_, ?_⟩, ?_, Heap.inv_boot b.place, fun _ => rfl, ?_⟩, ?_,
    List.mem_singleton_self _⟩
  · exact fun f hf => ⟨(b.frames f hf).1, (b.frames f hf).2.1⟩
  · exact fun f hf => if_neg (b.frames f hf).2.2
  · intro n
    rw [Start.kernel, List.mem_singleton]
    exact ⟨fun hn => (hrole hn).1, fun hn => if_pos hn⟩
  · intro t ρ i ρ' u ht hi hu
    obtain ⟨rfl, rfl⟩ := hrole ht
    rw [Start.kernel, hfollowed i ρ' hi] at hu
    cases hu
  · intro u q hu
    cases (hrole hu).2
  · intro t ρ i q u ht hi hu
    obtain ⟨rfl, rfl⟩ := hrole ht
    rw [Start.kernel, hfollowed i _ hi] at hu
    cases hu
  · intro r hr i _ _ r' hr'
    exact (List.mem_singleton.mp hr').trans (List.mem_singleton.mp hr).symm
  · intro r hr va hva
    rw [List.mem_singleton.mp hr, leafAt, path, walk_cons, Start.kernel, hfollowed _ _ (follows_window hva), wanted]
    split <;> rfl
  · intro hon
    exact absurd (hon.symm.trans (window_init HeapState.new b.place.arena.addr b.place.arena.size)) (by decide)
  · intro n
    rw [Start.kernel, List.mem_singleton, Held]
    split
    · next heq => exact ⟨fun _ => .inl (Option.some_ne_none _), fun _ => heq⟩
    · next hne =>
        refine ⟨fun heq => absurd heq hne, ?_⟩
        rintro (hno | hin)
        · exact absurd rfl hno
        · cases hin

namespace Inv

theorem not_table (h : Inv b s pages role) {n : Nat} (hn : n ∉ s.used) : role n = none ∧ PAGE_SIZE * n ∉ pages := by
  rw [h.used, Held, not_or, not_not] at hn
  exact hn

/-- Calls that only build tables and write outside the windows. -/
theorem grown {role' : Nat → Option Role} {p' : Phys} (h : Inv b s pages role)
    (hg : Grows b.priv s.roots pages role s.phys pages role' p') (hs : SameLeaves s.roots s.phys.mem p'.mem) :
    Inv b (s.after p') pages role' :=
  ⟨h.tied.remap hg.wired hs, hg.mem_usedAfter h.used, h.live⟩

theorem newSpace (h : Inv b s pages role)
    (hopen : ∀ i, windowSlot i = true → entryIsValid (tab s.phys.mem s.live i) = true) :
    ∃ role', Inv b (s.step b .newSpace) pages role' := by
  have hchild : ∀ i, windowSlot i = true → child (tab s.phys.mem s.live i) ≠ none := by
    intro i hi
    rw [child, if_pos (hopen i hi)]
    exact Option.some_ne_none _
  rw [Kernel.step]
  rcases newRoot_spec h.tied.wired h.live hchild with heq | ⟨n, p', heq, hfree, hfresh, hwired, hs⟩
  · rw [heq]
    exact ⟨role, h.grown (Grows.refl h.tied.wired) fun _ _ _ _ => rfl⟩
  · have hdiv : PAGE_SIZE * n / PAGE_SIZE = n := Nat.mul_div_cancel_left n (by decide)
    have htook : Took s.used s.phys (n :: s.used) p' := by
      refine ⟨[PAGE_SIZE * n], hfree, fun m => ?_⟩
      rw [List.map_singleton, List.mem_singleton, List.mem_cons, hdiv]
    rw [heq]
    dsimp only
    rw [hdiv]
    refine ⟨_, ⟨hwired, fun r hr va hva => ?_, h.tied.heap, h.tied.off, h.tied.next⟩, fun m => ?_,
      List.mem_cons_of_mem n h.live⟩
    · -- the new root shows what the live one does
      refine (hwired.leafAt_root hr (List.mem_cons_of_mem n h.live) hva).trans ?_
      exact (hs _ h.live va hva).trans (h.tied.shown _ h.live va hva)
    · refine (htook.mem_usedAfter m).trans ?_
      rw [List.mem_cons, h.used, Held, Held]
      by_cases hm : m = n
      · rw [hm, Function.update_self]
        exact ⟨fun _ => .inl (Option.some_ne_none _), fun _ => .inl rfl⟩
      · rw [Function.update_of_ne hm]
        exact ⟨fun hin => hin.resolve_left hm, .inr⟩

theorem mapPrivate (h : Inv b s pages role) {ensure : Phys → Nat → Nat → Option Nat × Phys} {ok : Role → Prop}
    (hens : Fills ensure ok) (hok : ∀ n, ok (.own n)) {r va : Nat} (hp : s.Private b r va) (leaf : Nat) :
    ∃ role', Inv b (s.after (s.phys.mapWith ensure (PAGE_SIZE * r) va leaf).2) pages role' := by
  obtain ⟨hr, ⟨-, hpriv⟩, hwin⟩ := hp
  obtain ⟨role', hg, hs⟩ := mapPrivate_spec hens hok h.tied.wired hr hpriv hwin leaf
  exact ⟨role', h.grown hg hs⟩

theorem unmap (h : Inv b s pages role) {r va : Nat} (hp : s.Private b r va) :
    Inv b (s.after (s.phys.unmapInRoot (PAGE_SIZE * r) va).2) pages role := by
  obtain ⟨hr, ⟨-, hpriv⟩, hwin⟩ := hp
  obtain ⟨hwired, hs, hfree⟩ := unmapPrivate_spec h.tied.wired hr hpriv hwin
  refine h.grown ⟨hwired, fun hn => hn, [], hfree.symm, fun _ => ?_⟩ hs
  exact ⟨.inr, fun hin => hin.resolve_left List.not_mem_nil⟩

theorem device (h : Inv b s pages role) {va : Nat} (hva : idx va SHIFT_512G = DEVICE_SLOT) (pa : Nat) :
    ∃ role', Inv b (match s.phys.mapDevicePage (PAGE_SIZE * s.live) va pa with
      | (false, p) => s.after p
      | (true, p) => { s.after p with devs := (va, pa) :: s.devs }) pages role' := by
  have hslot : windowSlot (idx va SHIFT_512G) = true := by rw [hva]; rfl
  obtain ⟨role', p', hg, ⟨heq, hs⟩ | ⟨heq, hleaf⟩⟩ := mapDevicePage_spec h.tied.wired h.live hslot pa
  · rw [heq]
    exact ⟨role', h.grown hg hs⟩
  · rw [heq]
    exact ⟨role', ⟨hg.wired, h.tied.shown.devicePage hva hleaf, h.tied.heap, h.tied.off, h.tied.next⟩,
      hg.mem_usedAfter h.used, h.live⟩

theorem windowInit (h : Inv b s pages role) : Inv b (s.step b .windowInit) pages role := by
  have hheap := Heap.inv_step b.place s.heap .windowInit h.tied.heap
  refine ⟨⟨h.tied.wired, h.tied.shown, hheap, ?_, ?_⟩, h.used, h.live⟩
  · rw [Kernel.step, Heap.step, HeapState.windowInit]
    split
    · exact h.tied.off
    · exact fun hoff => by cases hoff
  · rw [Kernel.step, Heap.step, HeapState.windowInit]
    split
    · exact h.tied.next
    · next hoff =>
        intro _
        rw [h.tied.off (Bool.eq_false_iff.mpr hoff), b.window]
        rfl

theorem alloc (h : Inv b s pages role) (layout : Layout) :
    ∃ ds role', Inv b (s.step b (.alloc layout)) (pages ++ ds) role' := by
  obtain ⟨res, t, p', ds, role', heq, hg, ht, -, -⟩ := alloc_spec h.live h.tied layout
  rw [Kernel.step, heq]
  cases res <;> exact ⟨ds, role', ht, hg.mem_usedAfter h.used, h.live⟩

theorem dealloc (h : Inv b s pages role) (ptr : Nat) (layout : Layout) :
    Inv b (s.step b (.dealloc ptr layout)) pages role := by
  have hheap := Heap.inv_step b.place s.heap (.dealloc ptr layout) h.tied.heap
  have hsame : (s.heap.heap.dealloc ptr layout).windowEnabled = s.heap.heap.windowEnabled ∧
      (s.heap.heap.dealloc ptr layout).windowNext = s.heap.heap.windowNext := by
    rw [HeapState.dealloc]
    split
    · exact ⟨rfl, rfl⟩
    · split <;> exact ⟨rfl, rfl⟩
  refine ⟨⟨h.tied.wired, h.tied.shown, hheap, ?_, ?_⟩, h.used, h.live⟩
  · rw [Kernel.step, Heap.step]
    split
    · rw [hsame.1]
      exact h.tied.off
    · exact h.tied.off
  · rw [Kernel.step, Heap.step]
    split
    · rw [hsame.1, hsame.2]
      exact h.tied.next
    · exact h.tied.next

/-- Frames leave the free stack, or come to it. -/
theorem refree (h : Inv b s pages role) {free : List Nat}
    (hw : Wired b.priv s.roots pages role { s.phys with free := free }) :
    Inv b { s with phys := { s.phys with free := free } } pages role :=
  ⟨⟨hw, h.tied.shown, h.tied.heap, h.tied.off, h.tied.next⟩, h.used, h.live⟩

theorem refill (h : Inv b s pages role) {frames : List Nat} (hu : s.Unused frames) :
    Inv b { s with phys := { s.phys with free := frames ++ s.phys.free } } pages role := by
  have hw := h.tied.wired
  have hframe : ∀ f ∈ frames, role (f / PAGE_SIZE) = none ∧ f ∉ pages := by
    intro f hf
    obtain ⟨hdvd, -, hused⟩ := hu.2 f hf
    have hfree := h.not_table hused
    rwa [Nat.mul_div_cancel' hdvd] at hfree
  have hmem : ∀ f ∈ pages ++ (frames ++ s.phys.free), f ∈ frames ∨ f ∈ pages ++ s.phys.free := by
    intro f hf
    rcases List.mem_append.mp hf with hf | hf
    · exact .inr (List.mem_append_left _ hf)
    · exact (List.mem_append.mp hf).imp_right (List.mem_append_right _)
  refine h.refree (hw.refree ?_ ?_ ?_)
  · rw [List.nodup_append']
    refine ⟨(List.nodup_append'.mp hw.nodup).1, hu.1, fun f hf hf' => ?_⟩
    rcases List.mem_append.mp hf' with hin | hin
    · exact (hframe f hin).2 hf
    · exact (List.nodup_append'.mp hw.nodup).2.2 hf hin
  · exact fun f hf => (hmem f hf).elim (fun hin => ⟨(hu.2 f hin).1, (hu.2 f hin).2.1⟩) (hw.frame f)
  · exact fun f hf => (hmem f hf).elim (fun hin => (hframe f hin).1) (hw.fresh f)

/-- A word outside the tables is written. -/
theorem write (h : Inv b s pages role) {addr : Nat} (val : Nat) (hout : role (addr / PAGE_SIZE) = none) :
    Inv b { s with phys := s.phys.write addr val } pages role := by
  obtain ⟨hw, hs⟩ := h.tied.wired.write_outside val hout
  exact ⟨h.tied.remap hw hs, h.used, h.live⟩

theorem idx_of_inWindow (h : Inv b s pages role) {va : Nat} (hin : s.InWindow va) :
    idx va SHIFT_512G = HEAP_SLOT := by
  obtain ⟨hon, hlo, hhi⟩ := hin
  have hstop := (h.tied.heap.window.next hon).2
  rw [b.window, stop] at hstop
  simp only [HEAP_WINDOW_BASE, HEAP_WINDOW_SIZE] at hlo hstop
  rw [Fin.ext_iff, idx]
  dsimp only
  rw [levelIndex_eq, SHIFT_512G]
  change _ = 2
  omega

theorem store (h : Inv b s pages role) (va val : Nat) : Inv b (s.step b (.store va val)) pages role := by
  rw [Kernel.step]
  split
  · next hin =>
      cases hpa : vaToPaInRoot s.phys.mem (PAGE_SIZE * s.live) va with
      | none => exact h
      | some pa =>
          have hmem := vaToPa_heap h.tied.wired h.tied.shown h.live (h.idx_of_inWindow hin) hpa
          obtain ⟨n, rfl⟩ := (h.tied.wired.frame pa (List.mem_append_left _ hmem)).1
          refine h.write val ?_
          rw [Nat.mul_add_div (by decide), Nat.div_eq_of_lt (Nat.mod_lt va (by decide)), Nat.add_zero]
          have hfresh := h.tied.wired.fresh _ (List.mem_append_left _ hmem)
          rwa [Nat.mul_div_cancel_left n (by decide)] at hfresh
  · exact h

end Inv

/-- Every step keeps the invariant, and the frames the window has it keeps. -/
theorem inv_step (h : Inv b s pages role) (op : Op) (hord : s.Ordered op) :
    ∃ ds role', Inv b (s.step b op) (pages ++ ds) role' := by
  have hstill : ∀ {s' role'}, Inv b s' pages role' → ∃ ds role', Inv b s' (pages ++ ds) role' :=
    fun h' => ⟨[], _, by rw [List.append_nil]; exact h'⟩
  cases op with
  | newSpace =>
      obtain ⟨role', h'⟩ := h.newSpace hord
      exact hstill h'
  | switchRoot r =>
      rw [Kernel.step]
      split
      · next hr => exact hstill ⟨h.tied, h.used, hr⟩
      · exact hstill h
  | map r va pa writable =>
      rw [Kernel.step]
      split
      · next hp =>
          obtain ⟨role', h'⟩ := h.mapPrivate fills_ensureTable (fun _ => trivial) hp _
          exact hstill h'
      · exact hstill h
  | mapUser r va pa writable exec =>
      rw [Kernel.step]
      split
      · next hp =>
          obtain ⟨role', h'⟩ := h.mapPrivate fills_ensureTableUser (fun n => ⟨n, rfl⟩) hp _
          exact hstill h'
      · exact hstill h
  | unmap r va =>
      rw [Kernel.step]
      split
      · next hp => exact hstill (h.unmap hp)
      · exact hstill h
  | device va pa =>
      rw [Kernel.step]
      split
      · next hva =>
          obtain ⟨role', h'⟩ := h.device hva.2 pa
          exact hstill h'
      · exact hstill h
  | windowInit => exact hstill h.windowInit
  | alloc layout => exact h.alloc layout
  | dealloc ptr layout => exact hstill (h.dealloc ptr layout)
  | take =>
      rw [Kernel.step, Phys.frameAlloc]
      cases hfree : s.phys.free with
      | nil => exact hstill h
      | cons f rest =>
          obtain ⟨-, -, -, -, -, hw⟩ := h.tied.wired.pop hfree
          exact hstill (h.refree hw)
  | refill frames =>
      rw [Kernel.step]
      split
      · next hu => exact hstill (h.refill hu)
      · exact hstill h
  | poke addr val =>
      rw [Kernel.step]
      split
      · next hout => exact hstill (h.write val (h.not_table hout).1)
      · exact hstill h
  | store va val => exact hstill (h.store va val)

theorem inv_exec : ∀ (ops : List Op) {s : Kernel} {pages : List Nat} {role : Nat → Option Role}, Inv b s pages role →
    Guarded (Kernel.step b) Kernel.Ordered s ops →
      ∃ ds role', Inv b (exec (Kernel.step b) s ops) (pages ++ ds) role' := by
  intro ops
  induction ops with
  | nil => exact fun h _ => ⟨[], _, by rw [List.append_nil]; exact h⟩
  | cons op ops ih =>
      intro s pages role h hg
      obtain ⟨ds, role', h'⟩ := inv_step h op hg.1
      obtain ⟨ds', role'', h''⟩ := ih h' hg.2
      rw [List.append_assoc] at h''
      exact ⟨ds ++ ds', role'', h''⟩

/-! ## A run -/

theorem small_apart : Region.Disjoint ⟨0x100000, 64⟩ ⟨HEAP_WINDOW_BASE, HEAP_WINDOW_SIZE⟩ := by
  intro x hx hx'
  have harena := (mem_iff.mp hx).2
  have hwindow := (mem_iff.mp hx').1
  simp only [stop, HEAP_WINDOW_BASE] at harena hwindow
  omega

/-- A boot root with nothing mapped, seven frames, and a heap with a small arena. -/
def smallStart : Start where
  cr3 := 1
  phys := ⟨fun _ => 0, (List.range' 2 7).map (PAGE_SIZE * ·)⟩
  nodup := by decide
  frames := by decide
  place :=
    { arena := ⟨0x100000, 64⟩
      window := ⟨HEAP_WINDOW_BASE, HEAP_WINDOW_SIZE⟩
      arena_pos := by decide
      arena_aligned := by decide
      arena_fits := by decide
      window_pos := by decide
      window_pages := by decide
      window_fits := by decide
      apart := small_apart }
  granted := rfl
  vacant := fun _ _ => (by decide : (!entryIsValid 0) = true)

def pageLayout : Layout := ⟨4096, 8, ⟨3, rfl⟩, by decide⟩

/-- Both windows are opened; the heap's takes the last frame. -/
def opening : List Op := [.device LAPIC_WINDOW_VA 0xFEE00000, .windowInit, .alloc pageLayout]

/-- A space is made and switched to, and the heap grows there. -/
def elsewhere : List Op := [.refill [PAGE_SIZE * 20, PAGE_SIZE * 21], .newSpace, .switchRoot 20, .alloc pageLayout]

/-! ## What every space sees -/

/-- `pages` back the heap window, page by page and under every root, and nothing else lives in them. -/
structure Backed (b : Start) (s : Kernel) (pages : List Nat) : Prop where
  size : s.heap.heap.windowNext = s.heap.heap.windowBase + pages.length * PAGE
  nodup : (pages ++ s.phys.free).Nodup
  apart : ∀ f ∈ pages, ∀ r ∈ s.roots, ∀ va, windowSlot (idx va SHIFT_512G) = true ∨ b.priv (idx va SHIFT_512G) = true →
    ∀ n, walk child (tab s.phys.mem) r ((path va).take n) ≠ some (f / PAGE_SIZE)
  heap : ∀ r ∈ s.roots, ∀ va, idx va SHIFT_512G = HEAP_SLOT →
    hwWalk s.phys.mem (PAGE_SIZE * r) va = (pages[page va - page HEAP_WINDOW_BASE]?).map heapPage
  device : ∀ r ∈ s.roots, ∀ va, idx va SHIFT_512G = DEVICE_SLOT →
    hwWalk s.phys.mem (PAGE_SIZE * r) va = (lastDevice s.devs va).map devicePage

/-- The part of a path that was walked spells a role. -/
theorem spells_take {priv : Fin 512 → Bool} {va : Nat}
    (hva : windowSlot (idx va SHIFT_512G) = true ∨ priv (idx va SHIFT_512G) = true) (n : Nat) :
    ∃ ρ, walk id (follows priv) .root ((path va).take n) = some ρ := by
  have hwhole : ∃ ρ, walk id (follows priv) .root (path va) = some ρ := by
    cases hwin : windowSlot (idx va SHIFT_512G) with
    | true => exact ⟨_, spells_path hwin⟩
    | false =>
        rw [hwin] at hva
        exact ⟨_, spells_private (hva.resolve_left Bool.false_ne_true) hwin⟩
  obtain ⟨ρ, hρ⟩ := hwhole
  rw [← List.take_append_drop n (path va), walk_append, Option.bind_eq_some_iff] at hρ
  exact hρ.imp fun _ hwalk => hwalk.1

theorem Inv.backed (h : Inv b s pages role) : Backed b s pages where
  size := by
    cases hon : s.heap.heap.windowEnabled with
    | false => rw [h.tied.heap.window.off hon, h.tied.off hon, List.length_nil, Nat.zero_mul, Nat.add_zero]
    | true =>
        rw [h.tied.next hon, h.tied.heap.window.base hon, b.window]
        rfl
  nodup := h.tied.wired.nodup
  apart f hf r hr va hva n hwalk := by
    obtain ⟨ρ, hρ⟩ := spells_take hva n
    have hrole := h.tied.wired.typed.walk (h.tied.wired.root_of_mem hr) hρ hwalk
    rw [h.tied.wired.fresh f (List.mem_append_left _ hf)] at hrole
    cases hrole
  heap r hr va hva := hwWalk_heap h.tied.wired h.tied.shown hr hva
  device r hr va hva := hwWalk_device h.tied.wired h.tied.shown hr hva

/-- Along every run, every root translates the windows alike: page `j` of the heap window to frame
`j`, and what has a frame keeps it. -/
theorem windows_shared (b : Start) (pre post : List Op)
    (h : Guarded (Kernel.step b) Kernel.Ordered b.kernel (pre ++ post)) :
    ∃ pages more, Backed b (b.run pre) pages ∧ Backed b (b.run (pre ++ post)) (pages ++ more) := by
  obtain ⟨hpre, hpost⟩ := guarded_append.mp h
  obtain ⟨pages, role, hinv⟩ := inv_exec pre (inv_start b) hpre
  obtain ⟨more, role', hinv'⟩ := inv_exec post hinv hpost
  rw [List.nil_append] at hinv hinv'
  rw [Start.run, Start.run, exec_append]
  exact ⟨pages, more, hinv.backed, hinv'.backed⟩

theorem windows_shared_small :
    (smallStart.run (opening ++ elsewhere)).live = 20 ∧
      ∃ pages more, Backed smallStart (smallStart.run opening) pages ∧
        Backed smallStart (smallStart.run (opening ++ elsewhere)) (pages ++ more) :=
  ⟨by decide +kernel, windows_shared smallStart opening elsewhere (by decide +kernel)⟩

/-- The physical byte behind an address. -/
def byteAt (m : Mem) (r x : Nat) : Option Nat := (hwWalk m (PAGE_SIZE * r) x).map fun pg => pg.pa + x % PAGE_SIZE

theorem Inv.byteAt_eq (h : Inv b s pages role) {x : Nat} (hin : s.InWindow x) :
    ∃ d, pages[(x - HEAP_WINDOW_BASE) / PAGE_SIZE]? = some d ∧ PAGE_SIZE ∣ d ∧
      ∀ r ∈ s.roots, byteAt s.phys.mem r x = some (d + x % PAGE_SIZE) := by
  have hslot := h.idx_of_inWindow hin
  obtain ⟨hon, hlo, hhi⟩ := hin
  have hstop := (h.tied.heap.window.next hon).2
  rw [b.window, stop] at hstop
  rw [h.tied.next hon, heapPageVa] at hhi hstop
  have hpage : page x - page HEAP_WINDOW_BASE = (x - HEAP_WINDOW_BASE) / PAGE_SIZE := by
    simp only [page, HEAP_WINDOW_BASE, HEAP_WINDOW_SIZE, PAGE_SIZE] at hlo hhi hstop ⊢
    omega
  have hlt : (x - HEAP_WINDOW_BASE) / PAGE_SIZE < pages.length := by
    simp only [PAGE_SIZE] at hhi ⊢
    omega
  have hd := List.getElem?_eq_getElem hlt
  refine ⟨_, hd, (h.tied.wired.frame _ (List.mem_append_left _ (List.getElem_mem hlt))).1, fun r hr => ?_⟩
  rw [byteAt, hwWalk_heap h.tied.wired h.tied.shown hr hslot, hpage, hd]
  rfl

/-- Two addresses of the window share no byte. -/
theorem Inv.byteAt_inj (h : Inv b s pages role) {x x' : Nat} (hin : s.InWindow x) (hin' : s.InWindow x') {r r' : Nat}
    (hr : r ∈ s.roots) (hr' : r' ∈ s.roots) (heq : byteAt s.phys.mem r x = byteAt s.phys.mem r' x') : x = x' := by
  obtain ⟨d, hd, hdvd, hbyte⟩ := h.byteAt_eq hin
  obtain ⟨d', hd', hdvd', hbyte'⟩ := h.byteAt_eq hin'
  rw [hbyte r hr, hbyte' r' hr', Option.some.injEq] at heq
  have hlt := Nat.mod_lt x (show 0 < PAGE_SIZE by decide)
  have hlt' := Nat.mod_lt x' (show 0 < PAGE_SIZE by decide)
  obtain ⟨hsame, hoff⟩ : d = d' ∧ x % PAGE_SIZE = x' % PAGE_SIZE := by
    obtain ⟨n, rfl⟩ := hdvd
    obtain ⟨n', rfl⟩ := hdvd'
    simp only [PAGE_SIZE] at heq hlt hlt' ⊢
    omega
  have hindex : (x - HEAP_WINDOW_BASE) / PAGE_SIZE = (x' - HEAP_WINDOW_BASE) / PAGE_SIZE := by
    have hnodup := (List.nodup_append'.mp h.tied.wired.nodup).1
    obtain ⟨hk, hget⟩ := List.getElem?_eq_some_iff.mp hd
    obtain ⟨hk', hget'⟩ := List.getElem?_eq_some_iff.mp hd'
    exact hnodup.getElem_inj_iff.mp (hget.trans (hsame.trans hget'.symm))
  obtain ⟨-, hlo, -⟩ := hin
  obtain ⟨-, hlo', -⟩ := hin'
  simp only [HEAP_WINDOW_BASE, PAGE_SIZE] at hlo hlo' hindex hoff
  omega

/-- A live byte that is not the arena's lies in the mapped part of the window. -/
theorem Inv.inWindow_of_live (h : Inv b s pages role) {a : Nat × Layout} (ha : a ∈ s.heap.live) {x : Nat}
    (hx : x ∈ regionOf a) (hout : x ∉ b.place.arena) : s.InWindow x := by
  have hheap : Heap.Inv b.place s.heap := h.tied.heap
  have hpart := partition_of_weight hheap.tiles (donated_le_one hheap.arena hheap.window)
  obtain ⟨d, hd, hxd⟩ := (hpart.cover x).mp ⟨_, List.mem_append_right _ (List.mem_map_of_mem ha), hx⟩
  obtain ⟨hlo, hhi⟩ := mem_iff.mp hxd
  rcases List.mem_cons.mp hd with rfl | hd
  · obtain ⟨hstart, hsize⟩ := hheap.arena
    simp only [stop] at hlo hhi
    refine absurd (mem_iff.mpr ⟨by omega, ?_⟩) hout
    rw [stop]
    split at hhi <;> omega
  · obtain rfl := List.mem_singleton.mp hd
    simp only [stop] at hlo hhi
    cases hon : s.heap.heap.windowEnabled with
    | false =>
        have := hheap.window.off hon
        omega
    | true =>
        have hbase := hheap.window.base hon
        rw [b.window] at hbase
        exact ⟨hon, Nat.le_trans (Nat.le_of_eq hbase.symm) hlo, by omega⟩

/-- The mapped part of the window does not shrink. -/
theorem Inv.inWindow_mono {s' : Kernel} {more : List Nat} {role' : Nat → Option Role}
    (h' : Inv b s' (pages ++ more) role') (h : Inv b s pages role) {x : Nat} (hin : s.InWindow x) : s'.InWindow x := by
  obtain ⟨hon, hlo, hhi⟩ := hin
  rw [h.tied.next hon] at hhi
  have hpos : pages ≠ [] := by
    rintro rfl
    exact absurd (Nat.lt_of_le_of_lt hlo hhi) (Nat.lt_irrefl _)
  have hon' : s'.heap.heap.windowEnabled = true := by
    rw [← Bool.not_eq_false]
    intro hoff
    exact hpos (List.append_eq_nil_iff.mp (h'.tied.off hoff)).1
  refine ⟨hon', hlo, ?_⟩
  rw [h'.tied.next hon', List.length_append, heapPageVa_add]
  exact Nat.lt_add_right _ hhi

/-- What the clients hold in the window has bytes of its own, the same under every root and for as
long as the run goes on. -/
theorem blocks_backed (b : Start) (pre post : List Op)
    (h : Guarded (Kernel.step b) Kernel.Ordered b.kernel (pre ++ post)) :
    (∀ a ∈ (b.run pre).heap.live, ∀ x ∈ regionOf a, x ∉ b.place.arena →
      ∃ y, y / PAGE_SIZE * PAGE_SIZE ∉ (b.run pre).phys.free ∧
        (∀ r ∈ (b.run pre).roots, byteAt (b.run pre).phys.mem r x = some y) ∧
        ∀ r ∈ (b.run (pre ++ post)).roots, byteAt (b.run (pre ++ post)).phys.mem r x = some y) ∧
      (b.run pre).heap.live.Pairwise fun a a' =>
        ∀ x ∈ regionOf a, ∀ x' ∈ regionOf a', x ∉ b.place.arena → x' ∉ b.place.arena →
          ∀ r ∈ (b.run pre).roots, ∀ r' ∈ (b.run pre).roots,
            byteAt (b.run pre).phys.mem r x ≠ byteAt (b.run pre).phys.mem r' x' := by
  obtain ⟨hpre, hpost⟩ := guarded_append.mp h
  obtain ⟨pages, role, hinv⟩ := inv_exec pre (inv_start b) hpre
  obtain ⟨more, role', hinv'⟩ := inv_exec post hinv hpost
  rw [List.nil_append] at hinv hinv'
  rw [← exec_append] at hinv'
  constructor
  · intro a ha x hx hout
    have hin := hinv.inWindow_of_live ha hx hout
    obtain ⟨d, hd, hdvd, hbyte⟩ := hinv.byteAt_eq hin
    refine ⟨d + x % PAGE_SIZE, ?_, hbyte, fun r hr => ?_⟩
    · have hframe : (d + x % PAGE_SIZE) / PAGE_SIZE * PAGE_SIZE = d := by
        obtain ⟨n, rfl⟩ := hdvd
        rw [Nat.mul_add_div (by decide), Nat.div_eq_of_lt (Nat.mod_lt x (by decide)), Nat.add_zero, Nat.mul_comm]
      rw [hframe]
      exact (List.nodup_append'.mp hinv.tied.wired.nodup).2.2 (List.mem_of_getElem? hd)
    · obtain ⟨d', hd', -, hbyte'⟩ := hinv'.byteAt_eq (hinv'.inWindow_mono hinv hin)
      have hlt := (List.getElem?_eq_some_iff.mp hd).1
      rw [List.getElem?_append_left hlt, hd] at hd'
      cases hd'
      exact hbyte' r hr
  · have hpart := partition_of_weight hinv.tied.heap.tiles
      (donated_le_one hinv.tied.heap.arena hinv.tied.heap.window)
    refine (List.pairwise_map.mp (List.pairwise_append.mp hpart.disjoint).2.1).imp_of_mem ?_
    intro a a' ha ha' hdisj x hx x' hx' hout hout' r hr r' hr' heq
    obtain rfl := hinv.byteAt_inj (hinv.inWindow_of_live ha hx hout) (hinv.inWindow_of_live ha' hx' hout') hr hr' heq
    exact hdisj x hx hx'

theorem blocks_backed_small :
    ∃ y, y / PAGE_SIZE * PAGE_SIZE ∉ (smallStart.run opening).phys.free ∧
      (∀ r ∈ (smallStart.run opening).roots, byteAt (smallStart.run opening).phys.mem r HEAP_WINDOW_BASE = some y) ∧
      ∀ r ∈ (smallStart.run (opening ++ elsewhere)).roots,
        byteAt (smallStart.run (opening ++ elsewhere)).phys.mem r HEAP_WINDOW_BASE = some y :=
  (blocks_backed smallStart opening elsewhere (by decide +kernel)).1 (HEAP_WINDOW_BASE, pageLayout)
    (by decide +kernel) HEAP_WINDOW_BASE ⟨Nat.le_refl _, by decide +kernel⟩ fun hin => by
      have harena := (mem_iff.mp hin).2
      revert harena
      decide

/-- On its page tables the heap allocates as its own model does for some grants, and a null answer
means that nothing fits and there is no window, no room in it, or no frame left. -/
theorem alloc_refines (b : Start) (ops : List Op) (h : Guarded (Kernel.step b) Kernel.Ordered b.kernel ops)
    (layout : Layout) :
    ∃ res t p, alloc (b.run ops).heap.heap (b.run ops).phys (PAGE_SIZE * (b.run ops).live) layout = (res, t, p) ∧
      (∃ grants, (b.run ops).heap.heap.alloc layout grants = (res, t)) ∧
      (res = none → ∃ size align, required layout = some (size, align) ∧ t.tryFit size align = none ∧ Stuck t p) := by
  obtain ⟨pages, role, hinv⟩ := inv_exec ops (inv_start b) h
  obtain ⟨res, t, p, -, -, heq, -, -, hgrants, hnull⟩ := alloc_spec hinv.live hinv.tied layout
  exact ⟨res, t, p, heq, hgrants, hnull⟩

theorem alloc_refines_small :
    ∃ res t p, alloc (smallStart.run opening).heap.heap (smallStart.run opening).phys
        (PAGE_SIZE * (smallStart.run opening).live) pageLayout = (res, t, p) ∧
      (∃ grants, (smallStart.run opening).heap.heap.alloc pageLayout grants = (res, t)) ∧
      (res = none → ∃ size align, required pageLayout = some (size, align) ∧ t.tryFit size align = none ∧ Stuck t p) :=
  alloc_refines smallStart opening (by decide) pageLayout

end

end Yuva.Heap.Paged
