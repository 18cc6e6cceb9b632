/-
# `Yuva.Mmu.Spaces` — runs over any number of address spaces

The calls of `tb-hal/src/arch/x86_64/mmu.rs` in any order, over any number of roots made by
`address_space_new` from the kernel's live root, with everything else that can happen in
between: frames come to the allocator (`refill`, frames nobody uses), and anybody writes
anywhere but in the tables (`poke`).  A root is given by its frame number.

    private slot   a top-level slot the live root leaves vacant at boot
    page           the 4 KiB page of a 48-bit linear address
    used           the frames the tables took from the allocator
    hist           the calls that succeeded, newest first

**Proved here.**  `va_to_pa_in_root` answers the physical page of the last map of that page
in that root that no unmap followed, and a call changes the translation of the page it
names only, and none when it fails (`page_tables_refine_map`).  The answer is the address of
the frame: an offset into the page is not added to it (`offset_not_added`).
-/
import Yuva.Mmu.Forest
import Yuva.Lib.Run

namespace Yuva.Mmu

open Yuva.Radix Yuva.Run

/-- The machine when the first address space is made: the frame of the live root, memory, and
the frames the allocator may give. -/
structure Boot where
  cr3 : Nat
  phys : Phys
  nodup : phys.free.Nodup
  frames : ∀ f ∈ phys.free, PAGE_SIZE ∣ f ∧ f < 2 ^ 48 ∧ f / PAGE_SIZE ≠ cr3

namespace Boot

/-- The live root leaves the slot vacant. -/
def priv (b : Boot) (i : Fin 512) : Bool := !entryIsValid (tab b.phys.mem b.cr3 i)

/-- A 4 KiB-aligned address in a private slot. -/
def Private (b : Boot) (va : Nat) : Prop := PAGE_SIZE ∣ va ∧ b.priv (idx va SHIFT_512G) = true

instance (b : Boot) (va : Nat) : Decidable (b.Private va) := inferInstanceAs (Decidable (_ ∧ _))

end Boot

inductive Op
  | newSpace
  | map (r va pa : Nat) (writable : Bool)
  | mapUser (r va pa : Nat) (writable exec : Bool)
  | unmap (r va : Nat)
  | refill (frames : List Nat)
  | poke (addr val : Nat)

inductive Event
  | mapped (r va pa : Nat)
  | unmapped (r va : Nat)

structure Spaces where
  phys : Phys
  roots : List Nat
  used : List Nat
  hist : List Event

/-! ## The finite map -/

/-- The page of a linear address: 48 bits of it are translated. -/
def page (va : Nat) : Nat := va % 2 ^ 48 / PAGE_SIZE

/-- The page of a physical address, 48 bits wide. -/
def physPage (pa : Nat) : Nat := pa % 2 ^ 48 / PAGE_SIZE * PAGE_SIZE

/-- What the last map of the page says, unless an unmap followed; newest event first. -/
def lastPage : List Event → Nat → Nat → Option Nat
  | [], _, _ => none
  | .mapped r' va' pa :: h, r, va => if r = r' ∧ page va = page va' then some (physPage pa) else lastPage h r va
  | .unmapped r' va' :: h, r, va => if r = r' ∧ page va = page va' then none else lastPage h r va

/-! ## The calls -/

namespace Spaces

/-- The state after a call: the frames that left the free stack are in use. -/
def after (s : Spaces) (p : Phys) (evs : List Event) : Spaces :=
  { s with phys := p, used := usedAfter s.used s.phys p, hist := evs ++ s.hist }

/-- Frames nobody uses, none of them twice. -/
def Unused (b : Boot) (s : Spaces) (frames : List Nat) : Prop :=
  (frames ++ s.phys.free).Nodup ∧
    ∀ f ∈ frames, PAGE_SIZE ∣ f ∧ f < 2 ^ 48 ∧ f / PAGE_SIZE ∉ s.used ∧ f / PAGE_SIZE ≠ b.cr3

instance (b : Boot) (s : Spaces) (frames : List Nat) : Decidable (s.Unused b frames) :=
  inferInstanceAs (Decidable (_ ∧ _))

/-- A word in no table, nor a private slot of the live root. -/
def Outside (b : Boot) (s : Spaces) (addr : Nat) : Prop :=
  addr / PAGE_SIZE ∉ s.used ∧ ∀ i : Fin 512, b.priv i = true → addr ≠ PAGE_SIZE * b.cr3 + 8 * i

instance (b : Boot) (s : Spaces) (addr : Nat) : Decidable (s.Outside b addr) :=
  inferInstanceAs (Decidable (_ ∧ _))

/-- One call and what it answers.  Maps and unmaps are calls on aligned private addresses of
roots that exist. -/
def call (b : Boot) (s : Spaces) : Op → Bool × Spaces
  | .newSpace =>
      match s.phys.addressSpaceNew (PAGE_SIZE * b.cr3) with
      | (none, p) => (false, s.after p [])
      | (some root, p) => (true, { s.after p [] with roots := root / PAGE_SIZE :: s.roots })
  | .map r va pa writable =>
      if r ∈ s.roots ∧ b.Private va then
        let (ok, p) := s.phys.mapInRoot (PAGE_SIZE * r) va pa writable
        (ok, s.after p (if ok then [.mapped r va pa] else []))
      else (false, s)
  | .mapUser r va pa writable exec =>
      if r ∈ s.roots ∧ b.Private va then
        let (ok, p) := s.phys.mapUserInRoot (PAGE_SIZE * r) va pa writable exec
        (ok, s.after p (if ok then [.mapped r va pa] else []))
      else (false, s)
  | .unmap r va =>
      if r ∈ s.roots ∧ b.Private va then
        let (pa, p) := s.phys.unmapInRoot (PAGE_SIZE * r) va
        (pa.isSome, s.after p [.unmapped r va])
      else (false, s)
  | .refill frames =>
      if s.Unused b frames then (true, { s with phys := { s.phys with free := frames ++ s.phys.free } })
      else (false, s)
  | .poke addr val =>
      if s.Outside b addr then (true, { s with phys := s.phys.write addr val }) else (false, s)

def step (b : Boot) (s : Spaces) (op : Op) : Spaces := (s.call b op).2

end Spaces

def Boot.spaces (b : Boot) : Spaces := ⟨b.phys, [], [], []⟩

/-- The state after a list of calls. -/
def Boot.run (b : Boot) (ops : List Op) : Spaces := exec (Spaces.step b) b.spaces ops

/-- The call names the page of `va` in `r`. -/
def Op.Names (r va : Nat) : Op → Prop
  | .map r' va' _ _ | .mapUser r' va' _ _ _ | .unmap r' va' => r = r' ∧ page va = page va'
  | _ => False

/-! ## Pages -/

theorem entryAddr_eq (pa : Nat) : entryAddr pa = physPage pa := by
  apply Nat.eq_of_testBit_eq
  intro i
  have hpage : physPage pa = pa % 2 ^ 48 / 2 ^ 12 * 2 ^ 12 := rfl
  rw [hpage, Nat.testBit_mul_two_pow, Nat.testBit_div_two_pow, Nat.testBit_mod_two_pow, entryAddr, Nat.testBit_and,
    testBit_mask]
  by_cases h : 12 ≤ i
  · have hi : i - 12 + 12 = i := Nat.sub_add_cancel h
    simp [h, hi, Bool.and_comm]
  · simp [h]

/-- The four indices of an address are its page. -/
theorem page_eq (va : Nat) :
    page va = levelIndex va SHIFT_512G * 2 ^ 27 + levelIndex va SHIFT_1G * 2 ^ 18 +
      levelIndex va SHIFT_2M * 2 ^ 9 + levelIndex va SHIFT_4K := by
  simp only [page, levelIndex_eq, PAGE_SIZE, SHIFT_512G, SHIFT_1G, SHIFT_2M, SHIFT_4K]
  omega

theorem samePage_iff {va va' : Nat} : SamePage va va' ↔ page va' = page va := by
  constructor
  · rintro ⟨hpath, hidx⟩
    simp only [path, idx, List.cons.injEq, Fin.mk.injEq, and_true] at hpath hidx
    rw [page_eq, page_eq, hpath.1, hpath.2.1, hpath.2.2, hidx]
  · intro h
    rw [page_eq, page_eq] at h
    have h₁ := levelIndex_lt va SHIFT_1G
    have h₂ := levelIndex_lt va SHIFT_2M
    have h₃ := levelIndex_lt va SHIFT_4K
    have h₁' := levelIndex_lt va' SHIFT_1G
    have h₂' := levelIndex_lt va' SHIFT_2M
    have h₃' := levelIndex_lt va' SHIFT_4K
    simp only [SamePage, path, idx, List.cons.injEq, Fin.mk.injEq, and_true]
    omega

/-! ## The refinement -/

def Event.root : Event → Nat
  | .mapped r _ _ => r
  | .unmapped r _ => r

/-- The tables are a forest, and they translate as the history says. -/
structure Inv (b : Boot) (s : Spaces) : Prop where
  forest : Forest b.cr3 b.priv s.roots s.used s.phys
  refines : ∀ r ∈ s.roots, ∀ va, b.priv (idx va SHIFT_512G) = true →
    vaToPaInRoot s.phys.mem (PAGE_SIZE * r) va = lastPage s.hist r va
  known : ∀ ev ∈ s.hist, ev.root ∈ s.roots

theorem lastPage_of_unknown {h : List Event} {r : Nat} (hno : ∀ ev ∈ h, ev.root ≠ r) (va : Nat) :
    lastPage h r va = none := by
  induction h with
  | nil => rfl
  | cons ev h ih =>
      have hne := hno ev List.mem_cons_self
      have hrest := ih fun ev hev => hno ev (List.mem_cons_of_mem _ hev)
      cases ev with
      | mapped r' va' pa =>
          rw [lastPage, if_neg (fun hat => hne hat.1.symm)]
          exact hrest
      | unmapped r' va' =>
          rw [lastPage, if_neg (fun hat => hne hat.1.symm)]
          exact hrest

section
variable {b : Boot} {s : Spaces}

theorem inv_boot (b : Boot) : Inv b b.spaces where
  forest :=
    { free_nodup := b.nodup
      free_frame := fun f hf => ⟨(b.frames f hf).1, (b.frames f hf).2.1⟩
      free_fresh := fun f hf => ⟨List.not_mem_nil, (b.frames f hf).2.2⟩
      roots_used := fun r hr => by cases hr
      cr3_apart := List.not_mem_nil
      vacant := fun i hi => by
        rw [Boot.priv, Bool.not_eq_true'] at hi
        rw [child, Boot.spaces, hi]
        rfl
      reach := fun hok _ => by cases hok.1
      sep := fun _ _ _ _ _ hok => by cases hok.1 }
  refines := fun r hr => by cases hr
  known := fun ev hev => by cases hev

/-- The translation of a page after the calls on it: what the newest event says. -/
theorem refines_cons (h : Inv b s) {m : Mem} {r va : Nat} {new : Option Nat} {ev : Event}
    (hmap : Remapped b.priv s.roots s.phys.mem m r va new)
    (hev : ∀ r' va', lastPage (ev :: s.hist) r' va' =
      if r' = r ∧ page va' = page va then new else lastPage s.hist r' va')
    (r' : Nat) (hr' : r' ∈ s.roots) (va' : Nat) (hva' : b.priv (idx va' SHIFT_512G) = true) :
    vaToPaInRoot m (PAGE_SIZE * r') va' = lastPage (ev :: s.hist) r' va' := by
  rw [hmap r' hr' va' hva', hev, h.refines r' hr' va' hva']
  exact if_congr (and_congr_right fun _ => samePage_iff) rfl rfl

/-- A map of either kind keeps the invariant; one that fails changes no translation. -/
theorem inv_mapWith (h : Inv b s) {ensure : Phys → Nat → Nat → Option Nat × Phys} (hens : Ensures ensure) {r va : Nat}
    (hr : r ∈ s.roots) (hva : b.Private va) {pa leaf : Nat} (hleaf : leafOf leaf = some (physPage pa)) :
    Inv b (s.after (s.phys.mapWith ensure (PAGE_SIZE * r) va leaf).2
        (if (s.phys.mapWith ensure (PAGE_SIZE * r) va leaf).1 then [.mapped r va pa] else [])) ∧
      ((s.phys.mapWith ensure (PAGE_SIZE * r) va leaf).1 = false →
        SameTrans b.priv s.roots s.phys.mem (s.phys.mapWith ensure (PAGE_SIZE * r) va leaf).2.mem) := by
  obtain ⟨used', mid, hgrown, hcases⟩ :=
    mapWith_spec hens h.forest hr hva.2 leaf (ok_tablesOf hr hva.2) (Finset.Subset.refl _)
  rcases hcases with ⟨heq, -⟩ | ⟨p', heq, hfree, -, -, hforest, hmap⟩
  · rw [heq]
    refine ⟨⟨hgrown.forest.congr_used hgrown.taken.mem_usedAfter, ?_, h.known⟩, fun _ => hgrown.same⟩
    intro r' hr' va' hva'
    exact (hgrown.same r' hr' va' hva').trans (h.refines r' hr' va' hva')
  · have htook := hgrown.taken.congr_free hfree
    rw [heq]
    refine ⟨⟨hforest.congr_used htook.mem_usedAfter, ?_, ?_⟩, fun hno => by cases hno⟩
    · rw [hleaf] at hmap
      exact refines_cons h hmap fun r' va' => rfl
    · intro ev hev
      rcases List.mem_cons.mp hev with rfl | hev
      · exact hr
      · exact h.known ev hev

theorem inv_newSpace (h : Inv b s) :
    Inv b (s.call b .newSpace).2 ∧ SameTrans b.priv s.roots s.phys.mem (s.call b .newSpace).2.phys.mem := by
  rw [Spaces.call]
  rcases addressSpaceNew_spec h.forest with heq | ⟨n, p', heq, hfresh, hforest, hfree, hsame, hnone⟩
  · rw [heq]
    exact ⟨⟨h.forest.congr_used (Took.refl rfl).mem_usedAfter, h.refines, h.known⟩, fun _ _ _ _ => rfl⟩
  · rw [heq]
    have hdiv : PAGE_SIZE * n / PAGE_SIZE = n := Nat.mul_div_cancel_left n (by decide)
    have htook : Took s.used s.phys (n :: s.used) p' := by
      refine ⟨[PAGE_SIZE * n], hfree, fun m => ?_⟩
      rw [List.map_singleton, List.mem_singleton, List.mem_cons, hdiv]
    dsimp only
    rw [hdiv]
    refine ⟨⟨hforest.congr_used htook.mem_usedAfter, ?_, ?_⟩, hsame⟩
    · intro r hr va hva
      rcases List.mem_cons.mp hr with rfl | hr
      · have hunknown : lastPage s.hist r va = none := by
          refine lastPage_of_unknown (fun ev hev heq => hfresh ?_) va
          rw [← heq]
          exact h.forest.roots_used _ (h.known ev hev)
        exact (hnone va hva).trans hunknown.symm
      · exact (hsame r hr va hva).trans (h.refines r hr va hva)
    · exact fun ev hev => List.mem_cons_of_mem n (h.known ev hev)

theorem inv_unmap (h : Inv b s) {r va : Nat} (hr : r ∈ s.roots) (hva : b.Private va) :
    Inv b (s.after (s.phys.unmapInRoot (PAGE_SIZE * r) va).2 [.unmapped r va]) ∧
      ((s.phys.unmapInRoot (PAGE_SIZE * r) va).1.isSome = false →
        SameTrans b.priv s.roots s.phys.mem (s.phys.unmapInRoot (PAGE_SIZE * r) va).2.mem) := by
  obtain ⟨hans, hfree, hforest, hmap⟩ := unmap_spec h.forest hr hva.2
  refine ⟨⟨hforest.congr_used (Took.refl hfree).mem_usedAfter, ?_, ?_⟩, ?_⟩
  · exact refines_cons h hmap fun r' va' => rfl
  · intro ev hev
    rcases List.mem_cons.mp hev with rfl | hev
    · exact hr
    · exact h.known ev hev
  · intro hnone r' hr' va' hva'
    rw [hans, Option.isSome_eq_false_iff, Option.isNone_iff_eq_none] at hnone
    rw [hmap r' hr' va' hva']
    split
    · next hat =>
        obtain ⟨rfl, hpath, hidx⟩ := hat
        rw [← hnone, vaToPa_eq, vaToPa_eq, hpath, hidx]
    · rfl

theorem inv_refill (h : Inv b s) {frames : List Nat} (hok : s.Unused b frames) :
    Inv b { s with phys := { s.phys with free := frames ++ s.phys.free } } := by
  refine ⟨h.forest.refree hok.1 ?_ ?_, h.refines, h.known⟩
  · intro f hf
    rcases List.mem_append.mp hf with hf | hf
    · exact ⟨(hok.2 f hf).1, (hok.2 f hf).2.1⟩
    · exact h.forest.free_frame f hf
  · intro f hf
    rcases List.mem_append.mp hf with hf | hf
    · exact (hok.2 f hf).2.2
    · exact h.forest.free_fresh f hf

theorem inv_poke (h : Inv b s) {addr : Nat} (val : Nat) (hok : s.Outside b addr) :
    Inv b { s with phys := s.phys.write addr val } ∧
      SameTrans b.priv s.roots s.phys.mem (s.phys.write addr val).mem := by
  have hcell : ∀ n (i : Fin 512), addr ≠ PAGE_SIZE * n + 8 * i →
      tab (s.phys.write addr val).mem n i = tab s.phys.mem n i := by
    intro n i hne
    exact Function.update_of_ne hne.symm _ _
  have hused : ∀ n, n ∈ s.used → ∀ i, tab (s.phys.write addr val).mem n i = tab s.phys.mem n i := by
    intro n hn i
    refine hcell n i ?_
    rintro rfl
    refine hok.1 ?_
    have hdiv : (PAGE_SIZE * n + 8 * (i : Nat)) / PAGE_SIZE = n := by
      have := i.isLt
      rw [PAGE_SIZE]
      omega
    rwa [hdiv]
  obtain ⟨hforest, hsame⟩ :=
    h.forest.frame (s.phys.write addr val).mem hused (fun i hi => hcell b.cr3 i (hok.2 i hi))
  refine ⟨⟨hforest, fun r hr va hva => ?_, h.known⟩, hsame⟩
  exact (hsame r hr va hva).trans (h.refines r hr va hva)

/-- Every call keeps the invariant, and one that fails changes no translation. -/
theorem inv_call (h : Inv b s) (op : Op) :
    Inv b (s.call b op).2 ∧
      ((s.call b op).1 = false → SameTrans b.priv s.roots s.phys.mem (s.call b op).2.phys.mem) := by
  have hrefl : SameTrans b.priv s.roots s.phys.mem s.phys.mem := fun _ _ _ _ => rfl
  cases op with
  | newSpace => exact ⟨(inv_newSpace h).1, fun _ => (inv_newSpace h).2⟩
  | map r va pa writable =>
      rw [Spaces.call]
      split
      · next hok =>
          refine inv_mapWith h ensures_ensureTable hok.1 hok.2 ?_
          rw [leafOf_makeEntry (attrs_leaf writable), entryAddr_eq]
      · exact ⟨h, fun _ => hrefl⟩
  | mapUser r va pa writable exec =>
      rw [Spaces.call]
      split
      · next hok =>
          refine inv_mapWith h ensures_ensureTableUser hok.1 hok.2 ?_
          rw [leafOf_makeEntry (attrs_userLeaf writable exec), entryAddr_eq]
      · exact ⟨h, fun _ => hrefl⟩
  | unmap r va =>
      rw [Spaces.call]
      split
      · next hok => exact inv_unmap h hok.1 hok.2
      · exact ⟨h, fun _ => hrefl⟩
  | refill frames =>
      rw [Spaces.call]
      split
      · next hok => exact ⟨inv_refill h hok, fun _ => hrefl⟩
      · exact ⟨h, fun _ => hrefl⟩
  | poke addr val =>
      rw [Spaces.call]
      split
      · next hok => exact ⟨(inv_poke h val hok).1, fun _ => (inv_poke h val hok).2⟩
      · exact ⟨h, fun _ => hrefl⟩

theorem inv_run (b : Boot) (ops : List Op) : Inv b (b.run ops) :=
  exec_inv (P := Inv b) (fun _ op h => (inv_call h op).1) ops (inv_boot b)

/-- A call says something new about the page it names only. -/
theorem lastPage_call {op : Op} {r va : Nat} (hno : ¬ op.Names r va) :
    lastPage (s.call b op).2.hist r va = lastPage s.hist r va := by
  cases op with
  | newSpace =>
      rw [Spaces.call]
      split <;> rfl
  | map r' va' pa writable =>
      rw [Spaces.call]
      split
      · dsimp only
        cases (s.phys.mapInRoot (PAGE_SIZE * r') va' pa writable).1 with
        | false => rfl
        | true => exact if_neg hno
      · rfl
  | mapUser r' va' pa writable exec =>
      rw [Spaces.call]
      split
      · dsimp only
        cases (s.phys.mapUserInRoot (PAGE_SIZE * r') va' pa writable exec).1 with
        | false => rfl
        | true => exact if_neg hno
      · rfl
  | unmap r' va' =>
      rw [Spaces.call]
      split
      · exact if_neg hno
      · rfl
  | refill frames =>
      rw [Spaces.call]
      split <;> rfl
  | poke addr val =>
      rw [Spaces.call]
      split <;> rfl

theorem mem_roots_call {r : Nat} (hr : r ∈ s.roots) (op : Op) : r ∈ (s.call b op).2.roots := by
  cases op <;> rw [Spaces.call] <;> split <;> first | exact hr | exact List.mem_cons_of_mem _ hr

end

/-- **Page tables refine a finite map.**  After any calls over any number of roots, an address
of a private slot, at whatever offset into its page, translates in a root to the physical page of
the last map of its page there that no unmap followed; and a further call that names another page
or another root, or that fails, leaves the translation as it is. -/
theorem page_tables_refine_map (b : Boot) (ops : List Op) {r va : Nat} (hr : r ∈ (b.run ops).roots)
    (hva : b.priv (idx va SHIFT_512G) = true) :
    vaToPaInRoot (b.run ops).phys.mem (PAGE_SIZE * r) va = lastPage (b.run ops).hist r va ∧
      ∀ op, ¬ op.Names r va ∨ ((b.run ops).call b op).1 = false →
        vaToPaInRoot ((b.run ops).step b op).phys.mem (PAGE_SIZE * r) va =
          vaToPaInRoot (b.run ops).phys.mem (PAGE_SIZE * r) va := by
  have hinv := inv_run b ops
  refine ⟨hinv.refines r hr va hva, ?_⟩
  intro op hop
  have hcall := inv_call hinv op
  rcases hop with hno | hfail
  · rw [Spaces.step, hcall.1.refines r (mem_roots_call hr op) va hva, lastPage_call hno, hinv.refines r hr va hva]
  · exact hcall.2 hfail r hr va hva

/-- A machine with an empty live root in frame 1 and five free frames. -/
def smallBoot : Boot where
  cr3 := 1
  phys := ⟨fun _ => 0, [0x2000, 0x3000, 0x4000, 0x5000, 0x6000]⟩
  nodup := by decide
  frames := by decide

/-- One address space in it, with one page mapped. -/
def onePage : List Op := [.newSpace, .map 2 0x20000000000 0x9000 true]

theorem onePage_root : 2 ∈ (smallBoot.run onePage).roots :=
  mem_roots_call (s := smallBoot.run [.newSpace]) (by decide) _

theorem onePage_private : smallBoot.priv (idx 0x20000000234 SHIFT_512G) = true := by decide

theorem onePage_lastPage : lastPage (smallBoot.run onePage).hist 2 0x20000000234 = some 0x9000 := by
  decide +kernel

theorem page_tables_refine_map_small :
    vaToPaInRoot (smallBoot.run onePage).phys.mem 0x2000 0x20000000234 = some 0x9000 ∧
      ∀ op, ¬ op.Names 2 0x20000000234 ∨ ((smallBoot.run onePage).call smallBoot op).1 = false →
        vaToPaInRoot ((smallBoot.run onePage).step smallBoot op).phys.mem 0x2000 0x20000000234 =
          some 0x9000 := by
  obtain ⟨hpage, hframe⟩ := page_tables_refine_map smallBoot onePage onePage_root onePage_private
  rw [onePage_lastPage] at hpage
  exact ⟨hpage, fun op hop => (hframe op hop).trans hpage⟩

/-- The page offset is no part of the answer: 0x234 bytes into a page mapped at 0x9000 the
translation is 0x9000. -/
theorem offset_not_added :
    ¬ ∀ (b : Boot) (ops : List Op) (r va : Nat), r ∈ (b.run ops).roots → b.priv (idx va SHIFT_512G) = true →
      vaToPaInRoot (b.run ops).phys.mem (PAGE_SIZE * r) va =
        (lastPage (b.run ops).hist r va).map (· + va % PAGE_SIZE) := by
  intro h
  have hadded := h smallBoot onePage 2 0x20000000234 onePage_root onePage_private
  rw [(inv_run smallBoot onePage).refines 2 onePage_root 0x20000000234 onePage_private,
    onePage_lastPage] at hadded
  revert hadded
  decide

end Yuva.Mmu
