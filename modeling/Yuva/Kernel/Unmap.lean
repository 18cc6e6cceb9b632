/-
# `Yuva.Kernel.Unmap` — a block's frames go back unmapped

`agent_block_map` maps a block page by page and records the mapping after the last page;
`agent_block_unmap` takes down what was recorded and frees the frames.  A map that runs out
of table frames after its first page returns in between: its pages stay mapped and nothing
records them.

    spawn    a new root, copied from the live one, in a slot of the registry
    retable  an agent's table becomes any other: every way handles can move
    create, map, unmap   the facades, the map on pages of private slots

**Proved here.**  In every run whose maps find table frames for all their pages, or not
even for the first, a successful unmap leaves no root with a translation to a frame of the
block (`unmap_leaves_no_mapping`); a map that stops in between breaks it.
-/
import Yuva.Kernel.Pairwise
import Yuva.Mmu.Spaces

namespace Yuva.Kernel

open Yuva.Caps CapTable Yuva.Blocks Yuva.Mmu Yuva.Run

/-! ## Frames out of and back to the stack -/

/-- A frame that is no table. -/
def Loose (cr3 : Nat) (used : List Nat) (f : Nat) : Prop :=
  (PAGE_SIZE ∣ f ∧ f < 2 ^ 48) ∧ f / PAGE_SIZE ∉ used ∧ f / PAGE_SIZE ≠ cr3

section
variable {cr3 : Nat} {priv : Fin 512 → Bool} {roots used : List Nat} {p : Phys}

theorem loose_of_free (h : Forest cr3 priv roots used p) {f : Nat} (hf : f ∈ p.free) : Loose cr3 used f :=
  ⟨h.free_frame f hf, h.free_fresh f hf⟩

/-- Words of a frame that is no table are not seen. -/
theorem forest_write (h : Forest cr3 priv roots used p) {f : Nat} (hf : Loose cr3 used f) (m : Mem)
    (hm : ∀ n, n ≠ f / PAGE_SIZE → ∀ i, tab m n i = tab p.mem n i) :
    Forest cr3 priv roots used { p with mem := m } ∧ SameTrans priv roots p.mem m := by
  refine h.frame m (fun n hn => hm n ?_) (fun i _ => hm cr3 hf.2.2.symm i)
  rintro rfl
  exact hf.2.1 hn

theorem forest_zeroFrame (h : Forest cr3 priv roots used p) {f : Nat} (hf : Loose cr3 used f) :
    Forest cr3 priv roots used (zeroFrame p f) ∧ SameTrans priv roots p.mem (zeroFrame p f).mem := by
  refine forest_write h hf (zeroFrame p f).mem fun n hn i => ?_
  have hzero := tab_zeroTable p (f / PAGE_SIZE) n i
  rw [Nat.mul_div_cancel' hf.1.1, if_neg hn] at hzero
  exact hzero

theorem forest_frameFree (h : Forest cr3 priv roots used p) {f : Nat} (hf : Loose cr3 used f) (hnew : f ∉ p.free) :
    Forest cr3 priv roots used (p.frameFree f) ∧ SameTrans priv roots p.mem (p.frameFree f).mem := by
  have hlink : ∀ n, n ≠ f / PAGE_SIZE → ∀ i, tab (p.frameFree f).mem n i = tab p.mem n i := by
    intro n hn i
    refine Function.update_of_ne ?_ _ _
    rintro rfl
    have hi := i.isLt
    rw [PAGE_SIZE] at hn
    omega
  obtain ⟨hforest, hsame⟩ := forest_write h hf _ hlink
  refine ⟨hforest.refree (List.nodup_cons.mpr ⟨hnew, h.free_nodup⟩) ?_ ?_, hsame⟩
  · intro g hg
    rcases List.mem_cons.mp hg with rfl | hg
    · exact hf.1
    · exact h.free_frame g hg
  · intro g hg
    rcases List.mem_cons.mp hg with rfl | hg
    · exact hf.2
    · exact h.free_fresh g hg

theorem forest_giveBack (frames : List Nat) (h : Forest cr3 priv roots used p)
    (hloose : ∀ f ∈ frames, Loose cr3 used f) (hnodup : (frames ++ p.free).Nodup) :
    Forest cr3 priv roots used (frames.foldl Phys.frameFree p) ∧
      SameTrans priv roots p.mem (frames.foldl Phys.frameFree p).mem ∧
      ∀ f, f ∈ (frames.foldl Phys.frameFree p).free ↔ f ∈ frames ∨ f ∈ p.free := by
  induction frames generalizing p with
  | nil => exact ⟨h, fun _ _ _ _ => rfl, fun f => ⟨.inr, fun hf => hf.resolve_left List.not_mem_nil⟩⟩
  | cons f frames ih =>
      rw [List.cons_append, List.nodup_cons] at hnodup
      have hnew : f ∉ p.free := fun hmem => hnodup.1 (List.mem_append_right frames hmem)
      obtain ⟨hforest, hsame⟩ := forest_frameFree h (hloose f List.mem_cons_self) hnew
      have hrest : (frames ++ (p.frameFree f).free).Nodup := by
        rw [Phys.frameFree]
        exact List.nodup_middle.mpr (List.nodup_cons.mpr hnodup)
      obtain ⟨hforest', hsame', hmem⟩ :=
        ih hforest (fun g hg => hloose g (List.mem_cons_of_mem f hg)) hrest
      refine ⟨hforest', hsame.trans hsame', fun g => ?_⟩
      rw [List.foldl_cons, hmem, Phys.frameFree, List.mem_cons, List.mem_cons]
      constructor
      · rintro (hg | hg | hg)
        · exact .inl (.inr hg)
        · exact .inl (.inl hg)
        · exact .inr hg
      · rintro ((hg | hg) | hg)
        · exact .inr (.inl hg)
        · exact .inl hg
        · exact .inr (.inr hg)

/-- Frames taken for a block come off the free stack; a failed take puts them back. -/
theorem forest_takeFrames (n : Nat) (acc : List Nat) (h : Forest cr3 priv roots used p)
    (hacc : ∀ f ∈ acc, Loose cr3 used f) (hnodup : (acc ++ p.free).Nodup) :
    Forest cr3 priv roots used (takeFrames n acc p).2 ∧
      SameTrans priv roots p.mem (takeFrames n acc p).2.mem ∧
      (∀ f ∈ (takeFrames n acc p).2.free, f ∈ acc ∨ f ∈ p.free) ∧
      ∀ fs, (takeFrames n acc p).1 = some fs →
        (fs ++ (takeFrames n acc p).2.free).Nodup ∧ ∀ f ∈ fs, f ∈ acc ∨ f ∈ p.free := by
  induction n generalizing acc p with
  | zero =>
      refine ⟨h, fun _ _ _ _ => rfl, fun f hf => .inr hf, ?_⟩
      rintro fs hfs
      cases hfs
      exact ⟨hnodup, fun f hf => .inl hf⟩
  | succ n ih =>
      rw [takeFrames, Phys.frameAlloc]
      cases hfree : p.free with
      | nil =>
          obtain ⟨hforest, hsame, hmem⟩ := forest_giveBack acc h hacc hnodup
          refine ⟨hforest, hsame, fun f hf => ?_, fun fs hfs => by cases hfs⟩
          rw [← hfree]
          exact (hmem f).mp hf
      | cons pa rest =>
          have hpa : pa ∈ p.free := hfree ▸ List.mem_cons_self
          obtain ⟨-, -, -, -, -, hpopped⟩ := h.pop hfree
          obtain ⟨hforest, hsame⟩ := forest_zeroFrame hpopped (loose_of_free h hpa)
          have hsnoc : ∀ f, f ∈ acc ++ [pa] ↔ f ∈ acc ∨ f = pa := by
            intro f
            rw [List.mem_append, List.mem_singleton]
          have hloose : ∀ f ∈ acc ++ [pa], Loose cr3 used f := by
            intro f hf
            rcases (hsnoc f).mp hf with hf | rfl
            · exact hacc f hf
            · exact loose_of_free h hpa
          have hnodup' : (acc ++ [pa] ++ (zeroFrame { p with free := rest } pa).free).Nodup := by
            rw [hfree] at hnodup
            rw [List.append_assoc]
            exact hnodup
          obtain ⟨hforest', hsame', hback, htaken⟩ := ih (acc ++ [pa]) hforest hloose hnodup'
          have hfrom : ∀ f, f ∈ acc ++ [pa] ∨ f ∈ rest → f ∈ acc ∨ f ∈ pa :: rest := by
            rintro f (hf | hf)
            · rcases (hsnoc f).mp hf with hf | rfl
              · exact .inl hf
              · exact .inr List.mem_cons_self
            · exact .inr (List.mem_cons_of_mem pa hf)
          refine ⟨hforest', hsame.trans hsame', fun f hf => hfrom f (hback f hf), fun fs hfs => ?_⟩
          obtain ⟨hnodup'', hmem⟩ := htaken fs hfs
          exact ⟨hnodup'', fun f hf => hfrom f (hmem f hf)⟩

/-! ## The loops over pages -/

/-- The tables the pages of a block go through, at `baseVa`. -/
def pageTables (baseVa : BitVec 64) (n : Nat) : Finset (List (Fin 512)) :=
  (Finset.range n).biUnion fun i => tablesOf (pageVa baseVa i)

variable {r : Nat} {baseVa : BitVec 64}

theorem ok_pageTables {n : Nat} (hr : r ∈ roots) (hpriv : ∀ k < n, priv (idx (pageVa baseVa k) SHIFT_512G) = true) :
    ∀ q ∈ pageTables baseVa n, Ok priv roots r q := by
  intro q hq
  obtain ⟨k, hk, hq⟩ := Finset.mem_biUnion.mp hq
  exact ok_tablesOf hr (hpriv k (Finset.mem_range.mp hk)) q hq

theorem tablesOf_subset {n k : Nat} (hk : k < n) : tablesOf (pageVa baseVa k) ⊆ pageTables baseVa n :=
  Finset.subset_biUnion_of_mem (fun i => tablesOf (pageVa baseVa i)) (Finset.mem_range.mpr hk)

/-- The translations after a map are the ones before it, and the mapped pages. -/
def Adds (priv : Fin 512 → Bool) (roots : List Nat) (m m' : Mem) (r : Nat) (vas : Nat → Prop) (frames : List Nat) : Prop :=
  ∀ r' ∈ roots, ∀ va, priv (idx va SHIFT_512G) = true → ∀ f, vaToPaInRoot m' (PAGE_SIZE * r') va = some f →
    vaToPaInRoot m (PAGE_SIZE * r') va = some f ∨ (r' = r ∧ (∃ va', vas va' ∧ SamePage va' va) ∧ f ∈ frames)

/-- With a frame for every missing table the loop maps every page. -/
theorem mapPages_enough {n : Nat} (writable : Bool) (frames : List (BitVec 64)) (i : Nat)
    (h : Forest cr3 priv roots used p) (hr : r ∈ roots) (hn : i + frames.length = n)
    (hpriv : ∀ k < n, priv (idx (pageVa baseVa k) SHIFT_512G) = true)
    (hframes : ∀ f ∈ frames, PAGE_SIZE ∣ f.toNat ∧ f.toNat < 2 ^ 48)
    (henough : missing p.mem r (pageTables baseVa n) ≤ p.free.length) :
    ∃ used' p', mapPages (PAGE_SIZE * r) baseVa writable i frames p = (true, p') ∧
      Forest cr3 priv roots used' p' ∧ Took used p used' p' ∧
      Adds priv roots p.mem p'.mem r (fun va => ∃ k < n, va = pageVa baseVa k) (frames.map BitVec.toNat) := by
  induction frames generalizing i used p with
  | nil => exact ⟨used, p, rfl, h, Took.refl rfl, fun _ _ _ _ _ hf => .inl hf⟩
  | cons frame frames ih =>
      rw [List.length_cons] at hn
      have hi : i < n := by omega
      obtain ⟨used₁, mid, hgrown, hcases⟩ := mapWith_spec ensures_ensureTable h hr (hpriv i hi)
        (makeEntry frame.toNat (Phys.leafAttrs writable)) (ok_pageTables hr hpriv) (tablesOf_subset hi)
      rcases hcases with ⟨-, hshort⟩ | ⟨p₁, heq, hfree, hpaid, -, hforest, hmap⟩
      · exact absurd henough (Nat.not_le.mpr hshort)
      have htook : Took used p used₁ p₁ := hgrown.taken.congr_free hfree
      have henough₁ : missing p₁.mem r (pageTables baseVa n) ≤ p₁.free.length := by
        rw [Paid] at hpaid
        omega
      obtain ⟨used', p', heq', hforest', htook', hadds⟩ :=
        ih (i + 1) hforest (by omega) (fun f hf => hframes f (List.mem_cons_of_mem frame hf)) henough₁
      refine ⟨used', p', ?_, hforest', htook.trans htook', ?_⟩
      · rw [mapPages, Phys.mapInRoot, heq]
        exact heq'
      · obtain ⟨hdvd, hlt⟩ := hframes frame List.mem_cons_self
        rw [leafOf_makeEntry (attrs_leaf writable), entryAddr_of_frame hdvd hlt] at hmap
        intro r' hr' va hva f hf
        rcases hadds r' hr' va hva f hf with hold | ⟨hr'', hpage, hin⟩
        · rw [hmap r' hr' va hva] at hold
          split at hold
          · next hat =>
              refine .inr ⟨hat.1, ⟨_, ⟨i, hi, rfl⟩, hat.2⟩, ?_⟩
              rw [← Option.some.inj hold]
              exact List.mem_cons_self
          · exact .inl hold
        · exact .inr ⟨hr'', hpage, List.mem_cons_of_mem _ hin⟩

/-- With too few frames for the first page the loop stops there, and no translation changes. -/
theorem mapPages_short (writable : Bool) (frame : BitVec 64) (frames : List (BitVec 64))
    (h : Forest cr3 priv roots used p) (hr : r ∈ roots) (hpriv : priv (idx (pageVa baseVa 0) SHIFT_512G) = true)
    (hshort : p.free.length < missing p.mem r (tablesOf (pageVa baseVa 0))) :
    ∃ used' p', mapPages (PAGE_SIZE * r) baseVa writable 0 (frame :: frames) p = (false, p') ∧
      Grown cr3 priv roots used p used' p' := by
  obtain ⟨used₁, mid, hgrown, hcases⟩ := mapWith_spec ensures_ensureTable h hr hpriv
    (makeEntry frame.toNat (Phys.leafAttrs writable)) (ok_tablesOf hr hpriv) (Finset.Subset.refl _)
  rcases hcases with ⟨heq, -⟩ | ⟨p₁, -, -, hpaid, hdone, -, -⟩
  · refine ⟨used₁, mid, ?_, hgrown⟩
    rw [mapPages, Phys.mapInRoot, heq]
  · rw [Paid, hdone] at hpaid
    omega

/-- Translations go, the listed pages all of them, and none comes. -/
def Drops (priv : Fin 512 → Bool) (roots : List Nat) (m m' : Mem) (gone : Nat → Nat → Prop) : Prop :=
  ∀ r ∈ roots, ∀ va, priv (idx va SHIFT_512G) = true → ∀ f, vaToPaInRoot m' (PAGE_SIZE * r) va = some f →
    vaToPaInRoot m (PAGE_SIZE * r) va = some f ∧ ¬ gone r va

theorem unmapPages_spec {n : Nat} (h : Forest cr3 priv roots used p) (hr : r ∈ roots)
    (hpriv : ∀ k < n, priv (idx (pageVa baseVa k) SHIFT_512G) = true) :
    Forest cr3 priv roots used (unmapPages (PAGE_SIZE * r) baseVa n p) ∧
      (unmapPages (PAGE_SIZE * r) baseVa n p).free = p.free ∧
      Drops priv roots p.mem (unmapPages (PAGE_SIZE * r) baseVa n p).mem
        fun r' va => r' = r ∧ ∃ k < n, SamePage (pageVa baseVa k) va := by
  induction n with
  | zero =>
      refine ⟨h, rfl, fun r' hr' va hva f hf => ⟨hf, ?_⟩⟩
      rintro ⟨-, k, hk, -⟩
      exact absurd hk (Nat.not_lt_zero k)
  | succ n ih =>
      obtain ⟨hforest, hfree, hdrops⟩ := ih fun k hk => hpriv k (Nat.lt_succ_of_lt hk)
      obtain ⟨-, hfree', hforest', hmap⟩ := unmap_spec hforest hr (hpriv n (Nat.lt_succ_self n))
      have hstep : unmapPages (PAGE_SIZE * r) baseVa (n + 1) p =
          ((unmapPages (PAGE_SIZE * r) baseVa n p).unmapInRoot (PAGE_SIZE * r) (pageVa baseVa n)).2 := by
        rw [unmapPages, List.range_succ, List.foldl_append]
        rfl
      rw [hstep]
      refine ⟨hforest', hfree'.trans hfree, fun r' hr' va hva f hf => ?_⟩
      rw [hmap r' hr' va hva] at hf
      split at hf
      · cases hf
      · next hoff =>
          obtain ⟨hold, hgone⟩ := hdrops r' hr' va hva f hf
          refine ⟨hold, ?_⟩
          rintro ⟨rfl, k, hk, hpage⟩
          rcases Nat.lt_succ_iff_lt_or_eq.mp hk with hk | rfl
          · exact hgone ⟨rfl, k, hk, hpage⟩
          · exact hoff ⟨rfl, hpage⟩

/-- What unmapping a list of mappings takes down. -/
theorem unmapMembers_spec {n : Nat} (members : List (BitVec 64 × BitVec 64 × Bool)) (h : Forest cr3 priv roots used p)
    (hmembers : ∀ m ∈ members, (∃ r ∈ roots, m.1.toNat = PAGE_SIZE * r) ∧
      ∀ k < n, priv (idx (pageVa m.2.1 k) SHIFT_512G) = true) :
    Forest cr3 priv roots used (unmapMembers members n p) ∧ (unmapMembers members n p).free = p.free ∧
      Drops priv roots p.mem (unmapMembers members n p).mem
        fun r va => ∃ m ∈ members, m.1.toNat = PAGE_SIZE * r ∧ ∃ k < n, SamePage (pageVa m.2.1 k) va := by
  induction members generalizing p with
  | nil =>
      refine ⟨h, rfl, fun r hr va hva f hf => ⟨hf, ?_⟩⟩
      rintro ⟨m, hm, -⟩
      cases hm
  | cons m members ih =>
      obtain ⟨⟨r, hr, hroot⟩, hpriv⟩ := hmembers m List.mem_cons_self
      obtain ⟨hforest, hfree, hdrops⟩ := unmapPages_spec h hr hpriv
      rw [← hroot] at hforest hfree hdrops
      obtain ⟨hforest', hfree', hdrops'⟩ := ih hforest fun m' hm' => hmembers m' (List.mem_cons_of_mem m hm')
      refine ⟨hforest', hfree'.trans hfree, fun r' hr' va hva f hf => ?_⟩
      obtain ⟨hmid, hgone'⟩ := hdrops' r' hr' va hva f hf
      obtain ⟨hold, hgone⟩ := hdrops r' hr' va hva f hmid
      refine ⟨hold, ?_⟩
      rintro ⟨m', hm', hroot', hpage⟩
      rcases List.mem_cons.mp hm' with rfl | hm'
      · refine hgone ⟨?_, hpage⟩
        exact Nat.eq_of_mul_eq_mul_left (by decide) (hroot'.symm.trans hroot)
      · exact hgone' ⟨m', hm', hroot', hpage⟩

end

/-! ## The machine -/

/-- The registry over physical memory, the roots made, and the frames their tables took. -/
structure BlockSys where
  ag : Agents
  roots : List Nat
  used : List Nat

inductive BlockOp
  | spawn (i : Nat)
  | retable (i : Nat) (other : Agent)
  | create (a b nPages : Nat)
  | map (t : Nat) (h : Handle) (wantWritable : Bool) (baseVa : BitVec 64)
  | unmap (t : Nat) (h : Handle)

namespace BlockSys

/-- The agent and the live block a handle of slot `t` reaches. -/
def target (s : BlockSys) (t : Nat) (h : Handle) : Option (Agent × Nat) :=
  match s.ag.slot t with
  | none => none
  | some ap =>
      match blockOf ap.table s.ag.heap h with
      | .error _ => none
      | .ok (_, cell) => some (ap, cell)

def block (s : BlockSys) (cell : Nat) : Block := s.ag.heap.blocks cell

/-- Every page of the block lies in a private slot. -/
def Private (b : Boot) (s : BlockSys) (t : Nat) (h : Handle) (baseVa : BitVec 64) : Prop :=
  ∀ x ∈ s.target t h, ∀ k < (s.block x.2).nPages, b.priv (idx (pageVa baseVa k) SHIFT_512G) = true

instance (b : Boot) (s : BlockSys) (t : Nat) (h : Handle) (baseVa : BitVec 64) :
    Decidable (s.Private b t h baseVa) :=
  inferInstanceAs (Decidable (∀ x ∈ s.target t h, _))

def step (b : Boot) (s : BlockSys) : BlockOp → BlockSys
  | .spawn i =>
      match s.ag.phys.addressSpaceNew (PAGE_SIZE * b.cr3) with
      | (none, p) => { s with ag := { s.ag with phys := p } }
      | (some root, p) =>
          { ag := { s.ag with
              phys := p
              slot := Function.update s.ag.slot i (some (Agent.spawned root)) }
            roots := root / PAGE_SIZE :: s.roots
            used := root / PAGE_SIZE :: s.used }
  | .retable i other =>
      match s.ag.slot i with
      | none => s
      | some a => { s with ag := { s.ag with slot := Function.update s.ag.slot i (some { other with space := a.space }) } }
  | .create a b nPages => { s with ag := (s.ag.agentBlockCreate a b nPages).2 }
  | .map t h wantWritable baseVa =>
      if s.Private b t h baseVa then
        let ag := (s.ag.agentBlockMap t h wantWritable baseVa).2
        { s with ag := ag, used := usedAfter s.used s.ag.phys ag.phys }
      else s
  | .unmap t h => { s with ag := (s.ag.agentBlockUnmap t h).2 }

/-- There is a free frame for every table the block's pages miss, or too few even for the first page. -/
def Covered (s : BlockSys) : BlockOp → Prop
  | .map t h _ baseVa =>
      ∀ x ∈ s.target t h,
        missing s.ag.phys.mem (x.1.space / PAGE_SIZE) (pageTables baseVa (s.block x.2).nPages) ≤ s.ag.phys.free.length ∨
          s.ag.phys.free.length < missing s.ag.phys.mem (x.1.space / PAGE_SIZE) (tablesOf (pageVa baseVa 0))
  | _ => True

instance (s : BlockSys) (op : BlockOp) : Decidable (s.Covered op) :=
  match op with
  | .map t h _ _ => inferInstanceAs (Decidable (∀ x ∈ s.target t h, _ ∨ _))
  | .spawn _ | .retable _ _ | .create _ _ _ | .unmap _ _ => inferInstanceAs (Decidable True)

end BlockSys

/-- Nobody spawned, nothing allocated. -/
def blocksBoot (b : Boot) : BlockSys :=
  ⟨⟨fun _ => none, (World.boot fun _ : Unit => 0).heap, b.phys⟩, [], []⟩

/-! ## Who holds a frame -/

/-- A page of a recorded mapping of the block. -/
def Recorded (blk : Block) (r va : Nat) : Prop :=
  ∃ m ∈ blk.members, m.1.toNat = PAGE_SIZE * r ∧ ∃ k < blk.nPages, SamePage (pageVa m.2.1 k) va

/-- The recorded mappings of a block are in roots that exist, on private pages. -/
def Mappings (priv : Fin 512 → Bool) (roots : List Nat) (blk : Block) : Prop :=
  ∀ m ∈ blk.members, (∃ r ∈ roots, m.1.toNat = PAGE_SIZE * r) ∧
    ∀ k < blk.nPages, priv (idx (pageVa m.2.1 k) SHIFT_512G) = true

/-- Tables are a forest; the frames of live blocks are neither tables nor free, no frame is in two
of them, and every private translation is a recorded page of a live block. -/
structure Owned (b : Boot) (s : BlockSys) : Prop where
  forest : Forest b.cr3 b.priv s.roots s.used s.ag.phys
  roots_lt : ∀ r ∈ s.roots, PAGE_SIZE * r < 2 ^ 48
  spaces : ∀ i a, s.ag.slot i = some a → ∃ r ∈ s.roots, a.space = PAGE_SIZE * r
  fresh : ∀ c, s.ag.heap.next ≤ c → (s.block c).frames = []
  loose : ∀ c, (s.block c).isDead = false → ∀ f ∈ (s.block c).frames,
    Loose b.cr3 s.used f.toNat ∧ f.toNat ∉ s.ag.phys.free
  nodup : ∀ c, (s.block c).frames.Nodup
  apart : ∀ c c', c ≠ c' → (s.block c).isDead = false → (s.block c').isDead = false →
    ∀ f ∈ (s.block c).frames, f ∉ (s.block c').frames
  members : ∀ c, (s.block c).isDead = false → Mappings b.priv s.roots (s.block c)
  mapped : ∀ r ∈ s.roots, ∀ va, b.priv (idx va SHIFT_512G) = true → ∀ f,
    vaToPaInRoot s.ag.phys.mem (PAGE_SIZE * r) va = some f →
      ∃ c, (s.block c).isDead = false ∧ f ∈ (s.block c).frames.map BitVec.toNat ∧ Recorded (s.block c) r va

theorem owned_boot (b : Boot) : Owned b (blocksBoot b) where
  forest := (inv_boot b).forest
  roots_lt r hr := by cases hr
  spaces i a ha := by cases ha
  fresh c _ := rfl
  loose c _ f hf := by cases hf
  nodup c := List.nodup_nil
  apart c c' _ _ _ f hf := by cases hf
  members c _ m hm := by cases hm
  mapped r hr := by cases hr

section
variable {b : Boot} {s : BlockSys}

theorem target_eq_some {t : Nat} {h : Handle} {ap : Agent} {cell : Nat} :
    s.target t h = some (ap, cell) ↔
      s.ag.slot t = some ap ∧ ∃ rights, blockOf ap.table s.ag.heap h = .ok (rights, cell) := by
  rw [BlockSys.target]
  split
  · next hslot => rw [hslot]; exact ⟨fun hno => (by cases hno), fun hno => (by cases hno.1)⟩
  · next ap' hslot =>
      rw [hslot, Option.some.injEq]
      split
      · next e herr =>
          refine ⟨fun hno => (by cases hno), ?_⟩
          rintro ⟨rfl, rights, hok⟩
          rw [herr] at hok
          cases hok
      · next rights cell' hok =>
          rw [Option.some.injEq, Prod.mk.injEq]
          constructor
          · rintro ⟨rfl, rfl⟩
            exact ⟨rfl, rights, hok⟩
          · rintro ⟨rfl, rights', hok'⟩
            rw [hok] at hok'
            cases hok'
            exact ⟨rfl, rfl⟩

/-- A handle reaches live blocks only. -/
theorem live_of_blockOf {t : CapTable Obj} {heap : Heap} {h : Handle} {rights : Rights} {cell : Nat}
    (hok : blockOf t heap h = .ok (rights, cell)) : (heap.blocks cell).isDead = false := by
  rw [blockOf] at hok
  split at hok
  · cases hok
  · split at hok
    · cases hok
    · split at hok
      · cases hok
      · split at hok
        · cases hok
        · next hlive =>
            cases hok
            exact Bool.eq_false_iff.mpr hlive

theorem spawn_owned (h : Owned b s) (i : Nat) : Owned b (s.step b (.spawn i)) := by
  rw [BlockSys.step]
  rcases addressSpaceNew_spec h.forest with heq | ⟨n, p', heq, hfresh, hforest, hfree, hsame, hnone⟩
  · rw [heq]
    exact ⟨h.forest, h.roots_lt, h.spaces, h.fresh, h.loose, h.nodup, h.apart, h.members, h.mapped⟩
  · have hdiv : PAGE_SIZE * n / PAGE_SIZE = n := Nat.mul_div_cancel_left n (by decide)
    have hmem : PAGE_SIZE * n ∈ s.ag.phys.free := hfree ▸ List.mem_cons_self
    rw [heq]
    dsimp only
    rw [hdiv]
    refine ⟨hforest, ?_, ?_, h.fresh, ?_, h.nodup, h.apart, ?_, ?_⟩
    · intro r hr
      rcases List.mem_cons.mp hr with rfl | hr
      · exact (h.forest.free_frame _ hmem).2
      · exact h.roots_lt r hr
    · intro j a ha
      dsimp only at ha
      by_cases hj : j = i
      · rw [hj, Function.update_self] at ha
        cases ha
        exact ⟨n, List.mem_cons_self, rfl⟩
      · rw [Function.update_of_ne hj] at ha
        obtain ⟨r, hr, hspace⟩ := h.spaces j a ha
        exact ⟨r, List.mem_cons_of_mem n hr, hspace⟩
    · intro c hlive f hf
      obtain ⟨⟨hframe, hused, hcr3⟩, hnot⟩ := h.loose c hlive f hf
      refine ⟨⟨hframe, fun hin => ?_, hcr3⟩, fun hin => hnot (hfree ▸ List.mem_cons_of_mem _ hin)⟩
      rcases List.mem_cons.mp hin with heq' | hin
      · refine hnot ?_
        rw [← Nat.mul_div_cancel' hframe.1, heq']
        exact hmem
      · exact hused hin
    · intro c hlive m hm
      obtain ⟨⟨r, hr, hroot⟩, hpriv⟩ := h.members c hlive m hm
      exact ⟨⟨r, List.mem_cons_of_mem n hr, hroot⟩, hpriv⟩
    · intro r hr va hva f hf
      rcases List.mem_cons.mp hr with rfl | hr
      · rw [hnone va hva] at hf
        cases hf
      · exact h.mapped r hr va hva f ((hsame r hr va hva).symm.trans hf)

theorem retable_owned (h : Owned b s) (i : Nat) (other : Agent) : Owned b (s.step b (.retable i other)) := by
  rw [BlockSys.step]
  split
  · exact h
  · next a ha =>
      refine ⟨h.forest, h.roots_lt, ?_, h.fresh, h.loose, h.nodup, h.apart, h.members, h.mapped⟩
      intro j a' ha'
      dsimp only at ha'
      by_cases hj : j = i
      · rw [hj, Function.update_self] at ha'
        cases ha'
        exact h.spaces i a ha
      · rw [Function.update_of_ne hj] at ha'
        exact h.spaces j a' ha'

/-- Tables changed, and nothing else these results look at. -/
structure Quiet (s s' : Agents) : Prop where
  spaces : ∀ i a', s'.slot i = some a' → ∃ a, s.slot i = some a ∧ a'.space = a.space
  blocks : s'.heap.blocks = s.heap.blocks
  next : s.heap.next ≤ s'.heap.next
  phys : s'.phys = s.phys

theorem Quiet.refl (s : Agents) : Quiet s s := ⟨fun _ a ha => ⟨a, ha, rfl⟩, rfl, Nat.le_refl _, rfl⟩

theorem Quiet.trans {s s' s'' : Agents} (h : Quiet s s') (h' : Quiet s' s'') : Quiet s s'' where
  spaces i a'' ha'' := by
    obtain ⟨a', ha', hspace'⟩ := h'.spaces i a'' ha''
    obtain ⟨a, ha, hspace⟩ := h.spaces i a' ha'
    exact ⟨a, ha, hspace'.trans hspace⟩
  blocks := h'.blocks.trans h.blocks
  next := Nat.le_trans h.next h'.next
  phys := h'.phys.trans h.phys

theorem quiet_mint (s : Agents) (i : Nat) (rights : Rights) (what : Payload) : Quiet s (s.mint i rights what).2 := by
  rw [Agents.mint]
  split
  · exact Quiet.refl s
  · next a ha =>
      refine ⟨fun j a' ha' => ?_, rfl, Nat.le_succ _, rfl⟩
      dsimp only at ha'
      by_cases hj : j = i
      · rw [hj, Function.update_self] at ha'
        cases ha'
        exact ⟨a, hj ▸ ha, rfl⟩
      · rw [Function.update_of_ne hj] at ha'
        exact ⟨a', ha', rfl⟩

theorem quiet_mintPair (s : Agents) (i j : Nat) (ri rj : Rights) (wi wj : Payload) :
    Quiet s (s.mintPair i j ri rj wi wj).2 := by
  have hfirst := quiet_mint s i ri wi
  rw [Agents.mintPair]
  split
  · next s' heq =>
      rw [heq] at hfirst
      exact hfirst
  · next ha s' heq =>
      rw [heq] at hfirst
      have hsecond := quiet_mint s' j rj wj
      split
      · next s'' heq' =>
          rw [heq'] at hsecond
          exact hfirst.trans hsecond
      · next hb s'' heq' =>
          rw [heq'] at hsecond
          exact hfirst.trans hsecond

theorem quiet_owned (h : Owned b s) {ag : Agents} (hq : Quiet s.ag ag) : Owned b { s with ag := ag } := by
  have hblock : ∀ c, BlockSys.block { s with ag := ag } c = s.block c := fun c => congrFun hq.blocks c
  refine ⟨hq.phys ▸ h.forest, h.roots_lt, ?_, ?_, ?_, ?_, ?_, ?_, ?_⟩
  · intro i a ha
    obtain ⟨a', ha', hspace⟩ := hq.spaces i a ha
    obtain ⟨r, hr, hroot⟩ := h.spaces i a' ha'
    exact ⟨r, hr, hspace.trans hroot⟩
  · intro c hc
    rw [hblock]
    exact h.fresh c (Nat.le_trans hq.next hc)
  · intro c
    rw [hblock]
    dsimp only
    rw [hq.phys]
    exact h.loose c
  · intro c
    rw [hblock]
    exact h.nodup c
  · intro c c'
    rw [hblock, hblock]
    exact h.apart c c'
  · intro c
    rw [hblock]
    exact h.members c
  · intro r hr va hva f hf
    dsimp only at hf
    rw [hq.phys] at hf
    obtain ⟨c, hlive, hmem, hrec⟩ := h.mapped r hr va hva f hf
    exact ⟨c, by rw [hblock]; exact hlive, by rw [hblock]; exact hmem, by rw [hblock]; exact hrec⟩

/-- Memory and the free stack may change, as long as the forest stays and no frame of a block comes free. -/
theorem phys_owned (h : Owned b s) {p : Phys} (hforest : Forest b.cr3 b.priv s.roots s.used p)
    (hsame : SameTrans b.priv s.roots s.ag.phys.mem p.mem) (hfree : ∀ f ∈ p.free, f ∈ s.ag.phys.free) :
    Owned b { s with ag := { s.ag with phys := p } } := by
  refine ⟨hforest, h.roots_lt, h.spaces, h.fresh, ?_, h.nodup, h.apart, h.members, ?_⟩
  · intro c hlive f hf
    obtain ⟨hloose, hnot⟩ := h.loose c hlive f hf
    exact ⟨hloose, fun hin => hnot (hfree _ hin)⟩
  · intro r hr va hva f hf
    exact h.mapped r hr va hva f ((hsame r hr va hva).symm.trans hf)

theorem block_update {ag : Agents} {cell : Nat} {blk : Block} {roots used : List Nat}
    (hblocks : ag.heap.blocks = Function.update s.ag.heap.blocks cell blk) (c : Nat) :
    BlockSys.block ⟨ag, roots, used⟩ c = if c = cell then blk else s.block c := by
  rw [BlockSys.block, hblocks, Function.update_apply]
  rfl

/-- The block at a fresh cell, over frames that are no longer free. -/
theorem newBlock_owned (h : Owned b s) {ag : Agents} (fs : List (BitVec 64)) (hnodup : fs.Nodup)
    (hloose : ∀ f ∈ fs, Loose b.cr3 s.used f.toNat ∧ f.toNat ∉ s.ag.phys.free)
    (hapart : ∀ c, (s.block c).isDead = false → ∀ f ∈ (s.block c).frames, f ∉ fs)
    (hslot : ag.slot = s.ag.slot) (hphys : ag.phys = s.ag.phys) (hnext : ag.heap.next = s.ag.heap.next + 1)
    (hblocks : ag.heap.blocks = Function.update s.ag.heap.blocks s.ag.heap.next (Block.create fs)) :
    Owned b { s with ag := ag } := by
  have hnew : BlockSys.block { s with ag := ag } s.ag.heap.next = Block.create fs := by
    rw [block_update hblocks, if_pos rfl]
  have hold : ∀ c, c ≠ s.ag.heap.next → BlockSys.block { s with ag := ag } c = s.block c := by
    intro c hc
    rw [block_update hblocks, if_neg hc]
  refine ⟨hphys ▸ h.forest, h.roots_lt, ?_, ?_, ?_, ?_, ?_, ?_, ?_⟩
  · intro i a ha
    exact h.spaces i a (hslot ▸ ha)
  · intro c hc
    dsimp only at hc
    rw [hnext] at hc
    rw [hold c (by omega)]
    exact h.fresh c (by omega)
  · intro c
    dsimp only
    rw [hphys]
    by_cases hc : c = s.ag.heap.next
    · rw [hc, hnew]
      exact fun _ => hloose
    · rw [hold c hc]
      exact h.loose c
  · intro c
    by_cases hc : c = s.ag.heap.next
    · rw [hc, hnew]
      exact hnodup
    · rw [hold c hc]
      exact h.nodup c
  · intro c c' hne
    by_cases hc : c = s.ag.heap.next
    · rw [hc, hnew, hold c' (hc ▸ hne.symm)]
      intro _ hlive' f hf hf'
      exact hapart c' hlive' f hf' hf
    · rw [hold c hc]
      by_cases hc' : c' = s.ag.heap.next
      · rw [hc', hnew]
        exact fun hlive _ f hf => hapart c hlive f hf
      · rw [hold c' hc']
        exact h.apart c c' hne
  · intro c
    by_cases hc : c = s.ag.heap.next
    · rw [hc, hnew]
      exact fun _ m hm => by cases hm
    · rw [hold c hc]
      exact h.members c
  · intro r hr va hva f hf
    dsimp only at hf
    rw [hphys] at hf
    obtain ⟨c, hlive, hmem, hrec⟩ := h.mapped r hr va hva f hf
    -- the cell was fresh, so no frame was mapped through it
    have hc : c ≠ s.ag.heap.next := by
      rintro rfl
      rw [h.fresh _ (Nat.le_refl _)] at hmem
      cases hmem
    refine ⟨c, ?_⟩
    rw [hold c hc]
    exact ⟨hlive, hmem, hrec⟩

theorem toNat_ofNat_of_loose {cr3 : Nat} {used : List Nat} {f : Nat} (h : Loose cr3 used f) :
    (BitVec.ofNat 64 f).toNat = f := by
  rw [BitVec.toNat_ofNat]
  exact Nat.mod_eq_of_lt (Nat.lt_of_lt_of_le h.1.2 (Nat.pow_le_pow_right (by decide) (by decide)))

theorem create_owned (h : Owned b s) (i j n : Nat) : Owned b (s.step b (.create i j n)) := by
  rw [BlockSys.step, Agents.agentBlockCreate]
  split
  · exact h
  · obtain ⟨hforest, hsame, hback, htaken⟩ :=
      forest_takeFrames n [] h.forest (fun f hf => by cases hf) h.forest.free_nodup
    split
    · next p heq =>
        rw [heq] at hforest hsame hback
        exact phys_owned h hforest hsame fun f hf => (hback f hf).resolve_left List.not_mem_nil
    · next frames p heq =>
        rw [heq] at hforest hsame hback htaken
        have hphys := phys_owned h hforest hsame fun f hf => (hback f hf).resolve_left List.not_mem_nil
        obtain ⟨hnodup, hmem⟩ := htaken frames rfl
        have hloose : ∀ f ∈ frames, Loose b.cr3 s.used f :=
          fun f hf => loose_of_free h.forest ((hmem f hf).resolve_left List.not_mem_nil)
        have hword : ∀ f ∈ frames, (BitVec.ofNat 64 f).toNat = f := fun f hf => toNat_ofNat_of_loose (hloose f hf)
        have hblock : Owned b { s with ag := { s.ag with
            heap := { s.ag.heap with
              blocks := Function.update s.ag.heap.blocks s.ag.heap.next (Block.create (frames.map (BitVec.ofNat 64)))
              next := s.ag.heap.next + 1 }
            phys := p } } := by
          refine newBlock_owned hphys (frames.map (BitVec.ofNat 64)) ?_ ?_ ?_ rfl rfl rfl rfl
          · refine List.Nodup.map_on ?_ (List.Nodup.of_append_left hnodup)
            intro f hf g hg heq'
            rw [← hword f hf, ← hword g hg, heq']
          · intro w hw
            obtain ⟨f, hf, rfl⟩ := List.mem_map.mp hw
            rw [hword f hf]
            exact ⟨hloose f hf, List.disjoint_of_nodup_append hnodup hf⟩
          · intro c hlive w hw hin
            obtain ⟨f, hf, rfl⟩ := List.mem_map.mp hin
            refine (h.loose c hlive _ hw).2 ?_
            rw [hword f hf]
            exact (hmem f hf).resolve_left List.not_mem_nil
        exact quiet_owned hblock (quiet_mintPair _ _ _ _ _ _ _)

/-- What a call of `agent_block_map` does: nothing, or the loop on the block its handle reaches. -/
theorem agentBlockMap_cases (s : BlockSys) (t : Nat) (h : Handle) (wantWritable : Bool) (baseVa : BitVec 64) :
    (s.ag.agentBlockMap t h wantWritable baseVa).2 = s.ag ∨
      ∃ ap cell writable, s.target t h = some (ap, cell) ∧ (s.block cell).isDead = false ∧
        ((mapPages ap.space baseVa writable 0 (s.block cell).frames s.ag.phys).1 = false ∧
            (s.ag.agentBlockMap t h wantWritable baseVa).2 =
              { s.ag with phys := (mapPages ap.space baseVa writable 0 (s.block cell).frames s.ag.phys).2 } ∨
          (mapPages ap.space baseVa writable 0 (s.block cell).frames s.ag.phys).1 = true ∧
            (s.ag.agentBlockMap t h wantWritable baseVa).2 =
              { s.ag with
                phys := (mapPages ap.space baseVa writable 0 (s.block cell).frames s.ag.phys).2 }.setBlock cell
                  ((s.block cell).recordMember (BitVec.ofNat 64 ap.space) baseVa writable)) := by
  rw [Agents.agentBlockMap]
  split
  · exact .inl rfl
  · split
    · exact .inl rfl
    · next ap hslot =>
        split
        · exact .inl rfl
        · next rights cell hok =>
            have htarget : s.target t h = some (ap, cell) := target_eq_some.mpr ⟨hslot, rights, hok⟩
            split
            · exact .inl rfl
            · refine .inr ⟨ap, cell, wantWritable && rights.contains Rights.WRITE, htarget, live_of_blockOf hok, ?_⟩
              dsimp only
              split
              · next p heq => exact .inl ⟨congrArg Prod.fst heq, by rw [BlockSys.block, heq]⟩
              · next p heq => exact .inr ⟨congrArg Prod.fst heq, by rw [BlockSys.block, heq]⟩

/-- A call that takes free frames for tables, and changes no block but in its mappings. -/
theorem tables_owned (h : Owned b s) {ag : Agents} {used' : List Nat} (hslot : ag.slot = s.ag.slot)
    (hnext : ag.heap.next = s.ag.heap.next) (hforest : Forest b.cr3 b.priv s.roots used' ag.phys)
    (htook : Took s.used s.ag.phys used' ag.phys)
    (hframes : ∀ c, (ag.heap.blocks c).frames = (s.block c).frames)
    (hdead : ∀ c, (ag.heap.blocks c).isDead = (s.block c).isDead)
    (hmembers : ∀ c, (s.block c).isDead = false → Mappings b.priv s.roots (ag.heap.blocks c))
    (hmapped : ∀ r ∈ s.roots, ∀ va, b.priv (idx va SHIFT_512G) = true → ∀ f,
      vaToPaInRoot ag.phys.mem (PAGE_SIZE * r) va = some f →
        ∃ c, (s.block c).isDead = false ∧ f ∈ (s.block c).frames.map BitVec.toNat ∧ Recorded (ag.heap.blocks c) r va) :
    Owned b { s with ag := ag, used := usedAfter s.used s.ag.phys ag.phys } := by
  refine ⟨hforest.congr_used htook.mem_usedAfter, h.roots_lt, ?_, ?_, ?_, ?_, ?_, ?_, ?_⟩
  · intro i a ha
    exact h.spaces i a (hslot ▸ ha)
  · intro c hc
    rw [BlockSys.block, hframes]
    exact h.fresh c (hnext ▸ hc)
  · intro c hlive f hf
    rw [BlockSys.block, hdead] at hlive
    rw [BlockSys.block, hframes] at hf
    obtain ⟨⟨hframe, hused, hcr3⟩, hnot⟩ := h.loose c hlive f hf
    obtain ⟨new, hnew, hmem⟩ := htook
    refine ⟨⟨hframe, fun hin => ?_, hcr3⟩, fun hin => hnot (hnew ▸ List.mem_append_right new hin)⟩
    rcases (hmem _).mp ((Took.mem_usedAfter ⟨new, hnew, hmem⟩ _).mp hin) with hin | hin
    · obtain ⟨g, hg, hdiv⟩ := List.mem_map.mp hin
      have hfree : g ∈ s.ag.phys.free := hnew ▸ List.mem_append_left _ hg
      refine hnot ?_
      rw [← Nat.mul_div_cancel' hframe.1, ← hdiv, Nat.mul_div_cancel' (h.forest.free_frame g hfree).1]
      exact hfree
    · exact hused hin
  · intro c
    rw [BlockSys.block, hframes]
    exact h.nodup c
  · intro c c' hne hlive hlive'
    rw [BlockSys.block, hdead] at hlive hlive'
    rw [BlockSys.block, BlockSys.block, hframes, hframes]
    exact h.apart c c' hne hlive hlive'
  · intro c hlive
    rw [BlockSys.block, hdead] at hlive
    exact hmembers c hlive
  · intro r hr va hva f hf
    obtain ⟨c, hlive, hmem, hrec⟩ := hmapped r hr va hva f hf
    refine ⟨c, ?_, ?_, hrec⟩
    · rw [BlockSys.block, hdead]
      exact hlive
    · rw [BlockSys.block, hframes]
      exact hmem

/-- With a frame for every missing table, all pages are mapped and the mapping is recorded. -/
theorem recorded_owned (h : Owned b s) {cell r : Nat} {baseVa : BitVec 64} {writable : Bool} {p : Phys} {used' : List Nat}
    (hlive : (s.block cell).isDead = false) (hr : r ∈ s.roots)
    (hpages : ∀ k < (s.block cell).nPages, b.priv (idx (pageVa baseVa k) SHIFT_512G) = true)
    (hforest : Forest b.cr3 b.priv s.roots used' p) (htook : Took s.used s.ag.phys used' p)
    (hadds : Adds b.priv s.roots s.ag.phys.mem p.mem r (fun va => ∃ k < (s.block cell).nPages, va = pageVa baseVa k)
      ((s.block cell).frames.map BitVec.toNat)) {ag : Agents}
    (hag : ag = { s.ag with phys := p }.setBlock cell
      ((s.block cell).recordMember (BitVec.ofNat 64 (PAGE_SIZE * r)) baseVa writable)) :
    Owned b { s with ag := ag, used := usedAfter s.used s.ag.phys ag.phys } := by
  have hword : (BitVec.ofNat 64 (PAGE_SIZE * r)).toNat = PAGE_SIZE * r := by
    rw [BitVec.toNat_ofNat]
    exact Nat.mod_eq_of_lt (Nat.lt_of_lt_of_le (h.roots_lt r hr) (Nat.pow_le_pow_right (by decide) (by decide)))
  obtain ⟨blk, hblk⟩ : ∃ blk, blk = (s.block cell).recordMember (BitVec.ofNat 64 (PAGE_SIZE * r)) baseVa writable :=
    ⟨_, rfl⟩
  rw [← hblk] at hag
  have hdead : ¬ (s.block cell).dead = true := Bool.eq_false_iff.mp hlive
  rw [Block.recordMember, if_neg hdead] at hblk
  have hat : ∀ c, ag.heap.blocks c = if c = cell then blk else s.block c := by
    intro c
    rw [hag]
    exact Function.update_apply _ _ _ _
  have hmembers : ∀ m, m ∈ blk.members ↔
      m ∈ (s.block cell).members ∨ m = (BitVec.ofNat 64 (PAGE_SIZE * r), baseVa, writable) := by
    intro m
    rw [hblk, List.mem_append, List.mem_singleton]
  have hnPages : blk.nPages = (s.block cell).nPages := by rw [hblk]; rfl
  refine tables_owned h (by rw [hag]; rfl) (by rw [hag]; rfl) (by rw [hag]; exact hforest) (by rw [hag]; exact htook)
    ?_ ?_ ?_ ?_
  · intro c
    rw [hat]
    split
    · next hc => rw [hc, hblk]
    · rfl
  · intro c
    rw [hat]
    split
    · next hc => rw [hc, hblk]; rfl
    · rfl
  · intro c hlivec
    rw [hat]
    split
    · intro m hm
      rw [hnPages]
      rcases (hmembers m).mp hm with hm | rfl
      · exact h.members cell hlive m hm
      · exact ⟨⟨r, hr, hword⟩, hpages⟩
    · exact h.members c hlivec
  · intro r' hr' va hva f hf
    rw [hag] at hf
    rcases hadds r' hr' va hva f hf with hold | ⟨rfl, ⟨va', ⟨k, hk, rfl⟩, hpage⟩, hin⟩
    · obtain ⟨c, hlivec, hmem, m, hm, hroot, hpage⟩ := h.mapped r' hr' va hva f hold
      refine ⟨c, hlivec, hmem, ?_⟩
      rw [hat]
      split
      · next hc =>
          rw [hc] at hm hpage
          exact ⟨m, (hmembers m).mpr (.inl hm), hroot, hnPages.symm ▸ hpage⟩
      · exact ⟨m, hm, hroot, hpage⟩
    · refine ⟨cell, hlive, hin, ?_⟩
      rw [hat, if_pos rfl]
      exact ⟨_, (hmembers _).mpr (.inr rfl), hword, k, hnPages.symm ▸ hk, hpage⟩

theorem map_owned (h : Owned b s) {t : Nat} {hd : Handle} {wantWritable : Bool} {baseVa : BitVec 64}
    (hcov : s.Covered (.map t hd wantWritable baseVa)) : Owned b (s.step b (.map t hd wantWritable baseVa)) := by
  rw [BlockSys.step]
  split
  swap
  · exact h
  next hpriv =>
  dsimp only
  rcases agentBlockMap_cases s t hd wantWritable baseVa with heq | ⟨ap, cell, writable, htarget, hlive, hcases⟩
  · rw [heq]
    exact tables_owned h rfl rfl h.forest (Took.refl rfl) (fun _ => rfl) (fun _ => rfl) h.members h.mapped
  obtain ⟨r, hr, hspace⟩ := h.spaces t ap (target_eq_some.mp htarget).1
  have hdiv : ap.space / PAGE_SIZE = r := by rw [hspace, Nat.mul_div_cancel_left r (by decide)]
  have hpages := hpriv (ap, cell) htarget
  have hframe : ∀ f ∈ (s.block cell).frames, PAGE_SIZE ∣ f.toNat ∧ f.toNat < 2 ^ 48 :=
    fun f hf => (h.loose cell hlive f hf).1.1
  have hguard := hcov (ap, cell) htarget
  dsimp only at hpages hguard
  rw [hdiv] at hguard
  rw [hspace] at hcases
  by_cases henough : missing s.ag.phys.mem r (pageTables baseVa (s.block cell).nPages) ≤ s.ag.phys.free.length
  · obtain ⟨used', p', hmap, hforest, htook, hadds⟩ :=
      mapPages_enough writable (s.block cell).frames 0 h.forest hr (Nat.zero_add _) hpages hframe henough
    rw [hmap] at hcases
    obtain ⟨-, heq⟩ := hcases.resolve_left fun hno => by cases hno.1
    exact recorded_owned h hlive hr hpages hforest htook hadds heq
  · have hshort := hguard.resolve_left henough
    -- a block without pages misses no table
    obtain ⟨frame, frames, hfr⟩ : ∃ frame frames, (s.block cell).frames = frame :: frames := by
      cases hfr : (s.block cell).frames with
      | nil =>
          refine absurd ?_ henough
          rw [Block.nPages, hfr]
          exact Nat.zero_le _
      | cons frame frames => exact ⟨frame, frames, rfl⟩
    have hfirst : b.priv (idx (pageVa baseVa 0) SHIFT_512G) = true := by
      refine hpages 0 ?_
      rw [Block.nPages, hfr]
      exact Nat.zero_lt_succ _
    obtain ⟨used', p', hmap, hgrown⟩ := mapPages_short writable frame frames h.forest hr hfirst hshort
    rw [hfr, hmap] at hcases
    obtain ⟨-, heq⟩ := hcases.resolve_right fun hno => by cases hno.1
    rw [heq]
    refine tables_owned h rfl rfl hgrown.forest hgrown.taken (fun _ => rfl) (fun _ => rfl) h.members ?_
    intro r' hr' va hva f hf
    exact h.mapped r' hr' va hva f ((hgrown.same r' hr' va hva).symm.trans hf)

/-- What a call of `agent_block_unmap` does: nothing, or the teardown of the block its handle reaches. -/
theorem agentBlockUnmap_cases (s : BlockSys) (t : Nat) (h : Handle) :
    ((s.ag.agentBlockUnmap t h).2 = s.ag ∧ ∀ n, (s.ag.agentBlockUnmap t h).1 ≠ some (.ok, n)) ∨
      ∃ ap cell, s.target t h = some (ap, cell) ∧ (s.block cell).isDead = false ∧
        (s.ag.agentBlockUnmap t h).2 =
          { s.ag with
            phys := ((s.block cell).frames.map BitVec.toNat).foldl Phys.frameFree
              (unmapMembers (s.block cell).members (s.block cell).nPages s.ag.phys)
            slot := Function.update s.ag.slot t (some (ap.setTable (revoke_change ap.table h))) }.setBlock cell
              (s.block cell).kill := by
  rw [Agents.agentBlockUnmap]
  split
  · exact .inl ⟨rfl, fun n hno => by cases hno⟩
  · split
    · exact .inl ⟨rfl, fun n hno => by cases hno⟩
    · next ap hslot =>
        split
        · next e herr =>
            refine .inl ⟨rfl, fun n hno => ?_⟩
            cases hno
            rw [blockOf] at herr
            split at herr
            · next hlive =>
                cases herr
                exact live_error_ne_ok hlive rfl
            · split at herr
              · cases herr
              · split at herr
                · cases herr
                · split at herr <;> cases herr
        · next rights cell hok =>
            split
            · exact .inl ⟨rfl, fun n hno => by cases hno⟩
            · exact .inr ⟨ap, cell, target_eq_some.mpr ⟨hslot, rights, hok⟩, live_of_blockOf hok, rfl⟩

/-- The memory once the members of a block are unmapped and its frames are given back: every
translation that is left belongs to another live block. -/
theorem unmapped_phys (h : Owned b s) {cell : Nat} {phys : Phys} (hlive : (s.block cell).isDead = false)
    (hphys : phys = ((s.block cell).frames.map BitVec.toNat).foldl Phys.frameFree
      (unmapMembers (s.block cell).members (s.block cell).nPages s.ag.phys)) :
    Forest b.cr3 b.priv s.roots s.used phys ∧
      (∀ f, f ∈ phys.free ↔ f ∈ (s.block cell).frames.map BitVec.toNat ∨ f ∈ s.ag.phys.free) ∧
      ∀ r ∈ s.roots, ∀ va, b.priv (idx va SHIFT_512G) = true → ∀ f,
        vaToPaInRoot phys.mem (PAGE_SIZE * r) va = some f → ∃ c, c ≠ cell ∧ (s.block c).isDead = false ∧
          f ∈ (s.block c).frames.map BitVec.toNat ∧ Recorded (s.block c) r va := by
  obtain ⟨hforest, hfree, hdrops⟩ := unmapMembers_spec (s.block cell).members h.forest (h.members cell hlive)
  have hloose : ∀ f ∈ (s.block cell).frames.map BitVec.toNat, Loose b.cr3 s.used f ∧ f ∉ s.ag.phys.free := by
    intro f hf
    obtain ⟨w, hw, rfl⟩ := List.mem_map.mp hf
    exact h.loose cell hlive w hw
  have hnodup : ((s.block cell).frames.map BitVec.toNat ++
      (unmapMembers (s.block cell).members (s.block cell).nPages s.ag.phys).free).Nodup := by
    rw [hfree]
    refine List.Nodup.append ?_ h.forest.free_nodup fun f hf => (hloose f hf).2
    exact (h.nodup cell).map fun x y hxy => BitVec.eq_of_toNat_eq hxy
  obtain ⟨hforest', hsame, hback⟩ := forest_giveBack _ hforest (fun f hf => (hloose f hf).1) hnodup
  rw [hfree] at hback
  rw [← hphys] at hforest' hsame hback
  refine ⟨hforest', hback, ?_⟩
  intro r hr va hva f hf
  rw [hsame r hr va hva] at hf
  obtain ⟨hbefore, hgone⟩ := hdrops r hr va hva f hf
  obtain ⟨c, hlivec, hmem, hrec⟩ := h.mapped r hr va hva f hbefore
  refine ⟨c, ?_, hlivec, hmem, hrec⟩
  rintro rfl
  exact hgone hrec

/-- A teardown: the invariant stays, and no translation reaches a frame of the block. -/
theorem unmap_owned (h : Owned b s) {t cell : Nat} {ap : Agent} {hd : Handle} {ag : Agents} (hslot : s.ag.slot t = some ap)
    (hlive : (s.block cell).isDead = false) (hchange : Change ap.table (ap.table.revoke hd).2)
    (hag : ag = { s.ag with
        phys := ((s.block cell).frames.map BitVec.toNat).foldl Phys.frameFree
          (unmapMembers (s.block cell).members (s.block cell).nPages s.ag.phys)
        slot := Function.update s.ag.slot t (some (ap.setTable hchange)) }.setBlock cell (s.block cell).kill) :
    Owned b { s with ag := ag } ∧
      ∀ r ∈ s.roots, ∀ va, b.priv (idx va SHIFT_512G) = true → ∀ f ∈ (s.block cell).frames,
        vaToPaInRoot ag.phys.mem (PAGE_SIZE * r) va ≠ some f.toNat := by
  have hphys : ag.phys = ((s.block cell).frames.map BitVec.toNat).foldl Phys.frameFree
      (unmapMembers (s.block cell).members (s.block cell).nPages s.ag.phys) := by
    rw [hag]
    rfl
  obtain ⟨hforest, hback, hleft⟩ := unmapped_phys h hlive hphys
  have hblock : ∀ c, BlockSys.block { s with ag := ag } c = if c = cell then (s.block cell).kill else s.block c :=
    block_update (by rw [hag]; rfl)
  have hframes : ∀ c, (BlockSys.block { s with ag := ag } c).frames = (s.block c).frames := by
    intro c
    rw [hblock c]
    split
    case isTrue hc => rw [hc]; rfl
    case isFalse => rfl
  -- the block that dies is out of the way of every clause about live ones
  have halive : ∀ c, (BlockSys.block { s with ag := ag } c).isDead = false →
      c ≠ cell ∧ BlockSys.block { s with ag := ag } c = s.block c := by
    intro c hlivec
    by_cases hc : c = cell
    · rw [hblock c, if_pos hc] at hlivec
      cases hlivec
    · exact ⟨hc, by rw [hblock c, if_neg hc]⟩
  refine ⟨⟨hforest, h.roots_lt, ?_, ?_, ?_, ?_, ?_, ?_, ?_⟩, ?_⟩
  · intro i a ha
    rw [hag] at ha
    dsimp only [Agents.setBlock] at ha
    by_cases hi : i = t
    · rw [hi, Function.update_self] at ha
      cases ha
      exact h.spaces t ap hslot
    · rw [Function.update_of_ne hi] at ha
      exact h.spaces i a ha
  · intro c hc
    rw [hag] at hc
    rw [hframes c]
    exact h.fresh c hc
  · intro c hlivec f hf
    obtain ⟨hc, hsame⟩ := halive c hlivec
    rw [hsame] at hlivec hf
    obtain ⟨hl, hnot⟩ := h.loose c hlivec f hf
    refine ⟨hl, fun hin => ?_⟩
    rcases (hback _).mp hin with hin | hin
    · obtain ⟨w, hw, heq⟩ := List.mem_map.mp hin
      rw [BitVec.eq_of_toNat_eq heq] at hw
      exact h.apart c cell hc hlivec hlive f hf hw
    · exact hnot hin
  · intro c
    rw [hframes c]
    exact h.nodup c
  · intro c c' hne hlivec hlivec'
    obtain ⟨-, hsame⟩ := halive c hlivec
    obtain ⟨-, hsame'⟩ := halive c' hlivec'
    rw [hsame] at hlivec ⊢
    rw [hsame'] at hlivec' ⊢
    exact h.apart c c' hne hlivec hlivec'
  · intro c hlivec
    obtain ⟨-, hsame⟩ := halive c hlivec
    rw [hsame] at hlivec ⊢
    exact h.members c hlivec
  · intro r hr va hva f hf
    obtain ⟨c, hc, hlivec, hmem, hrec⟩ := hleft r hr va hva f hf
    refine ⟨c, ?_⟩
    rw [hblock c, if_neg hc]
    exact ⟨hlivec, hmem, hrec⟩
  · intro r hr va hva f hf hmapped
    obtain ⟨c, hc, hlivec, hmem, -⟩ := hleft r hr va hva f.toNat hmapped
    obtain ⟨w, hw, heq⟩ := List.mem_map.mp hmem
    rw [BitVec.eq_of_toNat_eq heq] at hw
    exact h.apart c cell hc hlivec hlive f hw hf

theorem step_owned (h : Owned b s) {op : BlockOp} (hcov : s.Covered op) : Owned b (s.step b op) := by
  cases op with
  | spawn i => exact spawn_owned h i
  | retable i other => exact retable_owned h i other
  | create i j n => exact create_owned h i j n
  | map t hd wantWritable baseVa => exact map_owned h hcov
  | unmap t hd =>
      rw [BlockSys.step]
      rcases agentBlockUnmap_cases s t hd with ⟨heq, -⟩ | ⟨ap, cell, htarget, hlive, heq⟩
      · rw [heq]
        exact h
      · exact (unmap_owned h (target_eq_some.mp htarget).1 hlive (revoke_change ap.table hd) heq).1

theorem run_owned {ops : List BlockOp} (hg : Guarded (BlockSys.step b) BlockSys.Covered (blocksBoot b) ops) :
    Owned b (exec (BlockSys.step b) (blocksBoot b) ops) :=
  exec_guarded (P := Owned b) (fun _ _ hcov h => step_owned h hcov) ops hg (owned_boot b)

end

/-- After every run whose maps find frames for all the tables they miss, or too few even for their
first page: an unmap that succeeds leaves no root with a private page translated to a frame of the
block, nor to any free frame. -/
theorem unmap_leaves_no_mapping (b : Boot) (ops : List BlockOp)
    (hg : Guarded (BlockSys.step b) BlockSys.Covered (blocksBoot b) ops) {t n : Nat} {h : Handle}
    (hok : ((exec (BlockSys.step b) (blocksBoot b) ops).ag.agentBlockUnmap t h).1 = some (.ok, n)) :
    ∃ ap cell, (exec (BlockSys.step b) (blocksBoot b) ops).target t h = some (ap, cell) ∧
      ∀ r ∈ (exec (BlockSys.step b) (blocksBoot b) ops).roots, ∀ va, b.priv (idx va SHIFT_512G) = true → ∀ f,
        vaToPaInRoot ((exec (BlockSys.step b) (blocksBoot b) ops).ag.agentBlockUnmap t h).2.phys.mem (PAGE_SIZE * r) va =
            some f →
          f ∉ ((exec (BlockSys.step b) (blocksBoot b) ops).block cell).frames.map BitVec.toNat ∧
            f ∉ ((exec (BlockSys.step b) (blocksBoot b) ops).ag.agentBlockUnmap t h).2.phys.free := by
  have howned := run_owned hg
  generalize exec (BlockSys.step b) (blocksBoot b) ops = s at hok howned ⊢
  rcases agentBlockUnmap_cases s t h with ⟨-, hno⟩ | ⟨ap, cell, htarget, hlive, heq⟩
  · exact absurd hok (hno n)
  · obtain ⟨hafter, hgone⟩ :=
      unmap_owned howned (target_eq_some.mp htarget).1 hlive (revoke_change ap.table h) heq
    refine ⟨ap, cell, htarget, fun r hr va hva f hf => ⟨fun hin => ?_, ?_⟩⟩
    · obtain ⟨w, hw, rfl⟩ := List.mem_map.mp hin
      exact hgone r hr va hva w hw hf
    · obtain ⟨c, hlivec, hmem, -⟩ := hafter.mapped r hr va hva f hf
      obtain ⟨w, hw, rfl⟩ := List.mem_map.mp hmem
      exact (hafter.loose c hlivec w hw).2

/-- An empty live root in frame 1, and seven free frames. -/
def sevenFrames : Boot where
  cr3 := 1
  phys := ⟨fun _ => 0, [0x2000, 0x3000, 0x4000, 0x5000, 0x6000, 0x7000, 0x8000]⟩
  nodup := by decide
  frames := by decide

/-- Two agents share a block of one page, and the owner maps it. -/
def mapsOnePage : List BlockOp :=
  [.spawn 0, .spawn 1, .create 0 1 1, .map 0 (Handle.new 1 0) true 0x28000000000]

theorem unmap_leaves_no_mapping_one :
    ((exec (BlockSys.step sevenFrames) (blocksBoot sevenFrames) mapsOnePage).ag.agentBlockUnmap 0 (Handle.new 1 0)).1 =
        some (.ok, 1) ∧
      ∃ ap cell, (exec (BlockSys.step sevenFrames) (blocksBoot sevenFrames) mapsOnePage).target 0 (Handle.new 1 0) =
        some (ap, cell) := by
  have hok : ((exec (BlockSys.step sevenFrames) (blocksBoot sevenFrames) mapsOnePage).ag.agentBlockUnmap 0
      (Handle.new 1 0)).1 = some (.ok, 1) := by
    decide +kernel
  have hcov : BlockSys.Covered (exec (BlockSys.step sevenFrames) (blocksBoot sevenFrames) (mapsOnePage.take 3))
      (.map 0 (Handle.new 1 0) true 0x28000000000) := by
    decide +kernel
  obtain ⟨ap, cell, htarget, -⟩ :=
    unmap_leaves_no_mapping sevenFrames mapsOnePage ⟨trivial, trivial, trivial, hcov, trivial⟩ hok
  exact ⟨hok, ap, cell, htarget⟩

/-- A block of two pages at the end of a page table's reach: the frames run out at the second. -/
def stopsBetween : List BlockOp :=
  [.spawn 0, .spawn 1, .create 0 1 2, .map 0 (Handle.new 1 0) true 0x280001FF000]

/-- The unmap that follows succeeds; the first page still translates to a frame of the block, which is free. -/
theorem stopped_map_survives_unmap :
    ((exec (BlockSys.step sevenFrames) (blocksBoot sevenFrames) stopsBetween).ag.agentBlockUnmap 0 (Handle.new 1 0)).1 =
        some (.ok, 2) ∧
      ((exec (BlockSys.step sevenFrames) (blocksBoot sevenFrames) stopsBetween).block 0).frames = [0x4000, 0x5000] ∧
      vaToPaInRoot ((exec (BlockSys.step sevenFrames) (blocksBoot sevenFrames) stopsBetween).ag.agentBlockUnmap 0
          (Handle.new 1 0)).2.phys.mem 0x2000 0x280001FF000 = some 0x4000 ∧
      0x4000 ∈ ((exec (BlockSys.step sevenFrames) (blocksBoot sevenFrames) stopsBetween).ag.agentBlockUnmap 0
          (Handle.new 1 0)).2.phys.free := by
  decide +kernel

end Yuva.Kernel
