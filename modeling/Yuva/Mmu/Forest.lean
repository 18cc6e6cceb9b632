/-
# `Yuva.Mmu.Forest` — address spaces as separated trees

Every root made by `address_space_new` is a copy of the live one; below the top-level
slots the live root leaves vacant, its private slots, each root grows a tree of its own.
`Forest` says so: the tables reached through private slots are frames in use, and no
table is reached by two paths.  It is what keeps the translations of one root out of
another's tables, and it is kept by every write the mappers make:

    relink   an interior entry gets an attribute bit              (`Forest.relink`)
    splice   a fresh zeroed table goes into a vacant interior cell (`Forest.splice`)
    leaf     a leaf entry is written or cleared                    (`Forest.leaf`)

`mapWith_spec`, `unmap_spec` and `addressSpaceNew_spec` say what the operations do to the
translations of all roots at once; the runs are in `Yuva.Mmu.Spaces`.
-/
import Yuva.Mmu.Paging
import Mathlib.Data.Finset.Card

namespace Yuva.Mmu

open Yuva.Radix

/-! ## Memory as a store of tables -/

/-- Cell `i` of the table in frame `n`. -/
def tab (mem : Mem) (n : Nat) (i : Fin 512) : Nat := mem (PAGE_SIZE * n + 8 * i)

/-- The frame an interior entry points at. -/
def child (e : Nat) : Option Nat := if entryIsValid e then some (entryAddr e / PAGE_SIZE) else none

/-- The page a leaf entry maps. -/
def leafOf (e : Nat) : Option Nat := if e &&& PTE_P = 0 then none else some (entryAddr e)

def idx (va shift : Nat) : Fin 512 := ⟨levelIndex va shift, levelIndex_lt va shift⟩

/-- The interior path of an address, top level first. -/
def path (va : Nat) : List (Fin 512) := [idx va SHIFT_512G, idx va SHIFT_1G, idx va SHIFT_2M]

@[simp] theorem length_path (va : Nat) : (path va).length = 3 := rfl

theorem cell_inj {n m : Nat} {i j : Fin 512} :
    PAGE_SIZE * n + 8 * (i : Nat) = PAGE_SIZE * m + 8 * (j : Nat) ↔ n = m ∧ i = j := by
  have hi := i.isLt
  have hj := j.isLt
  rw [PAGE_SIZE, Fin.ext_iff]
  omega

/-- A word written in a frame is a cell of its table written. -/
theorem tab_update (mem : Mem) (n : Nat) (i : Fin 512) (e : Nat) :
    tab (Function.update mem (PAGE_SIZE * n + 8 * i) e) = Radix.set (tab mem) n i e := by
  funext m j
  rw [tab, Function.update_apply, Radix.set, tab]
  exact if_congr cell_inj rfl rfl

theorem walkNext_eq (mem : Mem) (n : Nat) (i : Fin 512) :
    walkNext mem (PAGE_SIZE * n) i = (child (tab mem n i)).map (PAGE_SIZE * ·) := by
  rw [walkNext, child, tab]
  split
  · rw [Option.map_some, Nat.mul_div_cancel' (entryAddr_dvd _)]
  · rfl

theorem walkToPt_eq (mem : Mem) (n va : Nat) :
    walkToPt mem (PAGE_SIZE * n) va = (walk child (tab mem) n (path va)).map (PAGE_SIZE * ·) := by
  have h₁ := walkNext_eq mem n (idx va SHIFT_512G)
  rw [idx] at h₁
  rw [walkToPt, h₁, path, walk, idx]
  cases child (tab mem n ⟨levelIndex va SHIFT_512G, levelIndex_lt va SHIFT_512G⟩) with
  | none => rfl
  | some pdpt =>
      have h₂ := walkNext_eq mem pdpt (idx va SHIFT_1G)
      rw [idx] at h₂
      rw [Option.map_some]
      dsimp only
      rw [h₂, walk, idx]
      cases child (tab mem pdpt ⟨levelIndex va SHIFT_1G, levelIndex_lt va SHIFT_1G⟩) with
      | none => rfl
      | some pd =>
          have h₃ := walkNext_eq mem pd (idx va SHIFT_2M)
          rw [idx] at h₃
          rw [Option.map_some]
          dsimp only
          rw [h₃, walk, idx]
          cases child (tab mem pd ⟨levelIndex va SHIFT_2M, levelIndex_lt va SHIFT_2M⟩) <;> rfl

theorem vaToPa_eq (mem : Mem) (n va : Nat) :
    vaToPaInRoot mem (PAGE_SIZE * n) va =
      (walk child (tab mem) n (path va)).bind fun pt => leafOf (tab mem pt (idx va SHIFT_4K)) := by
  rw [vaToPaInRoot, walkToPt_eq]
  cases walk child (tab mem) n (path va) <;> rfl

/-! ## The forest -/

/-- The interior paths of the roots, through private slots. -/
def Ok (priv : Fin 512 → Bool) (roots : List Nat) (r : Nat) (p : List (Fin 512)) : Prop :=
  r ∈ roots ∧ p.length ≤ 3 ∧ ∀ i, p.head? = some i → priv i = true

theorem Ok.above {priv : Fin 512 → Bool} {roots : List Nat} {r : Nat} {p : List (Fin 512)}
    (h : Ok priv roots r p) (q : List (Fin 512)) (j : Fin 512) (hpre : q ++ [j] <+: p) : Ok priv roots r q := by
  obtain ⟨s, rfl⟩ := hpre
  obtain ⟨hr, hlen, hpriv⟩ := h
  refine ⟨hr, ?_, ?_⟩
  · simp only [List.length_append] at hlen
    omega
  · intro i hi
    cases q with
    | nil => cases hi
    | cons k q => exact hpriv i hi

theorem ok_path {priv : Fin 512 → Bool} {roots : List Nat} {r va : Nat} (h : r ∈ roots)
    (hva : priv (idx va SHIFT_512G) = true) : Ok priv roots r (path va) := by
  refine ⟨h, Nat.le_of_eq (length_path va), fun i hi => ?_⟩
  cases hi
  exact hva

/-- The private parts of the address spaces are separated trees of frames in use, the live root
is none of them, and the frames still free are none of them either. -/
structure Forest (cr3 : Nat) (priv : Fin 512 → Bool) (roots used : List Nat) (p : Phys) : Prop where
  free_nodup : p.free.Nodup
  free_frame : ∀ f ∈ p.free, PAGE_SIZE ∣ f ∧ f < 2 ^ 48
  free_fresh : ∀ f ∈ p.free, f / PAGE_SIZE ∉ used ∧ f / PAGE_SIZE ≠ cr3
  roots_used : ∀ r ∈ roots, r ∈ used
  cr3_apart : cr3 ∉ used
  vacant : ∀ i, priv i = true → child (tab p.mem cr3 i) = none
  reach : ∀ {r q t}, Ok priv roots r q → walk child (tab p.mem) r q = some t → t ∈ used
  sep : Separated child (Ok priv roots) (tab p.mem)

/-- Every private translation of every root is the same. -/
def SameTrans (priv : Fin 512 → Bool) (roots : List Nat) (m m' : Mem) : Prop :=
  ∀ r ∈ roots, ∀ va, priv (idx va SHIFT_512G) = true →
    vaToPaInRoot m' (PAGE_SIZE * r) va = vaToPaInRoot m (PAGE_SIZE * r) va

theorem SameTrans.trans {priv : Fin 512 → Bool} {roots : List Nat} {m m' m'' : Mem} (h : SameTrans priv roots m m')
    (h' : SameTrans priv roots m' m'') : SameTrans priv roots m m'' :=
  fun r hr va hva => (h' r hr va hva).trans (h r hr va hva)

namespace Forest

variable {cr3 : Nat} {priv : Fin 512 → Bool} {roots used : List Nat} {p : Phys}

theorem congr_used {used' : List Nat} (h : Forest cr3 priv roots used p) (hmem : ∀ n, n ∈ used' ↔ n ∈ used) :
    Forest cr3 priv roots used' p where
  free_nodup := h.free_nodup
  free_frame := h.free_frame
  free_fresh f hf := ⟨fun hin => (h.free_fresh f hf).1 ((hmem _).mp hin), (h.free_fresh f hf).2⟩
  roots_used r hr := (hmem r).mpr (h.roots_used r hr)
  cr3_apart hin := h.cr3_apart ((hmem _).mp hin)
  vacant := h.vacant
  reach hok hwalk := (hmem _).mpr (h.reach hok hwalk)
  sep := h.sep

/-- What happens outside the frames in use is not seen, as long as the live root's private slots stay vacant. -/
theorem frame (h : Forest cr3 priv roots used p) (mem' : Mem)
    (hsame : ∀ n, n ∈ used → ∀ i, tab mem' n i = tab p.mem n i)
    (hvacant : ∀ i, priv i = true → tab mem' cr3 i = tab p.mem cr3 i) :
    Forest cr3 priv roots used { p with mem := mem' } ∧ SameTrans priv roots p.mem mem' := by
  have hwalk : ∀ {r q}, Ok priv roots r q → walk child (tab mem') r q = walk child (tab p.mem) r q := by
    intro r q hok
    exact walk_congr fun q' j u hpre hreach => hsame u (h.reach (hok.above q' j hpre) hreach) j
  refine ⟨⟨h.free_nodup, h.free_frame, h.free_fresh, h.roots_used, h.cr3_apart, ?_, ?_, ?_⟩, ?_⟩
  · intro i hi
    dsimp only
    rw [hvacant i hi]
    exact h.vacant i hi
  · intro r q t hok hreach
    rw [hwalk hok] at hreach
    exact h.reach hok hreach
  · intro r q r' q' t hok hok' hreach hreach'
    rw [hwalk hok] at hreach
    rw [hwalk hok'] at hreach'
    exact h.sep hok hok' hreach hreach'
  · intro r hr va hva
    have hok := ok_path hr hva
    rw [vaToPa_eq, vaToPa_eq, hwalk hok]
    cases hpt : walk child (tab p.mem) r (path va) with
    | none => rfl
    | some pt => rw [Option.bind_some, Option.bind_some, hsame pt (h.reach hok hpt)]

/-- Frames may leave the free stack, and others may come in as long as nobody uses them. -/
theorem refree {free : List Nat} (h : Forest cr3 priv roots used p) (hnodup : free.Nodup)
    (hframe : ∀ f ∈ free, PAGE_SIZE ∣ f ∧ f < 2 ^ 48)
    (hfresh : ∀ f ∈ free, f / PAGE_SIZE ∉ used ∧ f / PAGE_SIZE ≠ cr3) :
    Forest cr3 priv roots used { p with free := free } :=
  ⟨hnodup, hframe, hfresh, h.roots_used, h.cr3_apart, h.vacant, h.reach, h.sep⟩

/-- An interior entry is rewritten to point where it did. -/
theorem relink {r t : Nat} {q : List (Fin 512)} {i : Fin 512} {e : Nat} (h : Forest cr3 priv roots used p)
    (hok : Ok priv roots r q) (hlen : q.length ≤ 2) (hwalk : walk child (tab p.mem) r q = some t)
    (he : child e = child (tab p.mem t i)) :
    Forest cr3 priv roots used (p.write (PAGE_SIZE * t + 8 * i) e) ∧
      SameTrans priv roots p.mem (p.write (PAGE_SIZE * t + 8 * i) e).mem ∧
      ∀ r q, walk child (tab (p.write (PAGE_SIZE * t + 8 * i) e).mem) r q = walk child (tab p.mem) r q := by
  have htab : tab (p.write (PAGE_SIZE * t + 8 * i) e).mem = Radix.set (tab p.mem) t i e := tab_update _ _ _ _
  have hsame : ∀ r q, walk child (tab (p.write (PAGE_SIZE * t + 8 * i) e).mem) r q = walk child (tab p.mem) r q := by
    intro r q
    rw [htab]
    exact walk_set_of_child_eq he r q
  refine ⟨⟨h.free_nodup, h.free_frame, h.free_fresh, h.roots_used, h.cr3_apart, ?_, ?_, ?_⟩, ?_, hsame⟩
  · intro j hj
    rw [htab, set_of_ne]
    · exact h.vacant j hj
    · rintro ⟨rfl, -⟩
      exact h.cr3_apart (h.reach hok hwalk)
  · intro r' q' t' hok' hreach
    rw [hsame] at hreach
    exact h.reach hok' hreach
  · intro r₁ q₁ r₂ q₂ u hok₁ hok₂ hw₁ hw₂
    rw [hsame] at hw₁ hw₂
    exact h.sep hok₁ hok₂ hw₁ hw₂
  · intro r' hr' va hva
    rw [vaToPa_eq, vaToPa_eq, hsame]
    cases hpt : walk child (tab p.mem) r' (path va) with
    | none => rfl
    | some pt =>
        rw [Option.bind_some, Option.bind_some, htab, set_of_ne]
        rintro ⟨rfl, -⟩
        -- a page table lies below an interior one, so it is not the table written
        have hpath := (h.sep (ok_path hr' hva) hok hpt hwalk).2
        rw [← hpath, length_path] at hlen
        omega

/-- A fresh zeroed table is hung into a vacant interior cell. -/
theorem splice {r t f : Nat} {q : List (Fin 512)} {i : Fin 512} {e : Nat} (h : Forest cr3 priv roots used p)
    (hok : Ok priv roots r (q ++ [i])) (hwalk : walk child (tab p.mem) r q = some t)
    (hvacant : child (tab p.mem t i) = none) (he : child e = some f) (hzero : ∀ j, tab p.mem f j = 0)
    (hfresh : f ∉ used ∧ f ≠ cr3) (hfree : ∀ g ∈ p.free, g / PAGE_SIZE ≠ f) :
    Forest cr3 priv roots (f :: used) (p.write (PAGE_SIZE * t + 8 * i) e) ∧
      SameTrans priv roots p.mem (p.write (PAGE_SIZE * t + 8 * i) e).mem ∧
      ∀ {r' q'}, Ok priv roots r' q' → walk child (tab (p.write (PAGE_SIZE * t + 8 * i) e).mem) r' q' =
        if r' = r ∧ q' = q ++ [i] then some f else walk child (tab p.mem) r' q' := by
  have habove := hok.above q i (List.prefix_refl _)
  have hlen : q.length ≤ 2 := by
    have := hok.2.1
    rw [List.length_append, List.length_singleton] at this
    omega
  have htab : tab (p.write (PAGE_SIZE * t + 8 * i) e).mem = Radix.set (tab p.mem) t i e := tab_update _ _ _ _
  have hempty : ∀ j, child (tab p.mem f j) = none := by
    intro j
    rw [hzero j]
    rfl
  have hnew : ∀ r' q', Ok priv roots r' q' → walk child (tab p.mem) r' q' ≠ some f :=
    fun r' q' hok' hreach => hfresh.1 (h.reach hok' hreach)
  have hft : f ≠ t := fun heq => hnew r q habove (heq ▸ hwalk)
  have hsplice : ∀ {r' q'}, Ok priv roots r' q' →
      walk child (tab (p.write (PAGE_SIZE * t + 8 * i) e).mem) r' q' =
        if r' = r ∧ q' = q ++ [i] then some f else walk child (tab p.mem) r' q' := by
    intro r' q' hok'
    rw [htab]
    exact walk_splice h.sep habove Ok.above hwalk hvacant he hempty hft hok'
  refine ⟨⟨h.free_nodup, h.free_frame, ?_, ?_, ?_, ?_, ?_, ?_⟩, ?_, hsplice⟩
  · intro g hg
    refine ⟨fun hin => ?_, (h.free_fresh g hg).2⟩
    rcases List.mem_cons.mp hin with heq | hin
    · exact hfree g hg heq
    · exact (h.free_fresh g hg).1 hin
  · exact fun r' hr' => List.mem_cons_of_mem f (h.roots_used r' hr')
  · intro hin
    rcases List.mem_cons.mp hin with heq | hin
    · exact hfresh.2 heq.symm
    · exact h.cr3_apart hin
  · intro j hj
    rw [htab, set_of_ne]
    · exact h.vacant j hj
    · rintro ⟨rfl, -⟩
      exact h.cr3_apart (h.reach habove hwalk)
  · intro r' q' t' hok' hreach
    rw [hsplice hok'] at hreach
    split at hreach
    · cases hreach
      exact List.mem_cons_self
    · exact List.mem_cons_of_mem f (h.reach hok' hreach)
  · rw [htab]
    exact separated_splice h.sep habove Ok.above hwalk hvacant he hempty hnew
  · intro r' hr' va hva
    have hok' := ok_path hr' hva
    rw [vaToPa_eq, vaToPa_eq, hsplice hok', htab]
    split
    · next hat =>
        -- the new page table maps nothing, and there was none before
        have hold : walk child (tab p.mem) r' (path va) = none := by
          rw [hat.1, hat.2, walk_snoc hwalk, hvacant]
        rw [hold, Option.bind_some, set_of_ne (fun hcell => hft hcell.1), hzero]
        rfl
    · cases hpt : walk child (tab p.mem) r' (path va) with
      | none => rfl
      | some pt =>
          rw [Option.bind_some, Option.bind_some, set_of_ne]
          rintro ⟨rfl, -⟩
          have hpath := (h.sep hok' habove hpt hwalk).2
          rw [← hpath, length_path] at hlen
          omega

/-- A leaf is written: one translation changes. -/
theorem leaf {r va pt : Nat} (h : Forest cr3 priv roots used p) (hr : r ∈ roots)
    (hva : priv (idx va SHIFT_512G) = true) (hwalk : walk child (tab p.mem) r (path va) = some pt) (e : Nat) :
    Forest cr3 priv roots used (p.write (PAGE_SIZE * pt + 8 * idx va SHIFT_4K) e) ∧
      (∀ r' ∈ roots, ∀ va', priv (idx va' SHIFT_512G) = true →
        vaToPaInRoot (p.write (PAGE_SIZE * pt + 8 * idx va SHIFT_4K) e).mem (PAGE_SIZE * r') va' =
          if r' = r ∧ path va' = path va ∧ idx va' SHIFT_4K = idx va SHIFT_4K then leafOf e
          else vaToPaInRoot p.mem (PAGE_SIZE * r') va') ∧
      ∀ {r' q'}, Ok priv roots r' q' →
        walk child (tab (p.write (PAGE_SIZE * pt + 8 * idx va SHIFT_4K) e).mem) r' q' = walk child (tab p.mem) r' q' := by
  have hok := ok_path hr hva
  have htab : tab (p.write (PAGE_SIZE * pt + 8 * idx va SHIFT_4K) e).mem =
      Radix.set (tab p.mem) pt (idx va SHIFT_4K) e := tab_update _ _ _ _
  have hsame : ∀ {r' q'}, Ok priv roots r' q' →
      walk child (tab (p.write (PAGE_SIZE * pt + 8 * idx va SHIFT_4K) e).mem) r' q' =
        walk child (tab p.mem) r' q' := by
    intro r' q' hok'
    rw [htab]
    refine walk_set_of_separated h.sep hok hwalk e hok'.above ?_
    rintro ⟨-, hlong⟩
    have hlen := hlong.length_le
    have := hok'.2.1
    rw [List.length_append, length_path, List.length_singleton] at hlen
    omega
  refine ⟨⟨h.free_nodup, h.free_frame, h.free_fresh, h.roots_used, h.cr3_apart, ?_, ?_, ?_⟩, ?_, hsame⟩
  · intro j hj
    rw [htab, set_of_ne]
    · exact h.vacant j hj
    · rintro ⟨rfl, -⟩
      exact h.cr3_apart (h.reach hok hwalk)
  · intro r' q' t' hok' hreach
    rw [hsame hok'] at hreach
    exact h.reach hok' hreach
  · intro r₁ q₁ r₂ q₂ u hok₁ hok₂ hw₁ hw₂
    rw [hsame hok₁] at hw₁
    rw [hsame hok₂] at hw₂
    exact h.sep hok₁ hok₂ hw₁ hw₂
  · intro r' hr' va' hva'
    have hok' := ok_path hr' hva'
    rw [vaToPa_eq, vaToPa_eq, hsame hok', htab]
    cases hpt : walk child (tab p.mem) r' (path va') with
    | none =>
        rw [Option.bind_none, Option.bind_none, if_neg]
        rintro ⟨rfl, hpath, -⟩
        rw [hpath, hwalk] at hpt
        cases hpt
    | some pt' =>
        rw [Option.bind_some, Option.bind_some]
        by_cases hsameTab : pt' = pt
        · obtain ⟨rfl, hpath⟩ := h.sep hok' hok (hsameTab ▸ hpt) hwalk
          rw [hsameTab]
          by_cases hidx : idx va' SHIFT_4K = idx va SHIFT_4K
          · rw [hidx, set_self, if_pos ⟨rfl, hpath, rfl⟩]
          · rw [set_of_ne (fun hcell => hidx hcell.2), if_neg (fun hat => hidx hat.2.2)]
        · rw [set_of_ne (fun hcell => hsameTab hcell.1), if_neg]
          rintro ⟨rfl, hpath, -⟩
          rw [hpath, hwalk] at hpt
          exact hsameTab (Option.some.inj hpt).symm

/-- A frame whose private slots are all vacant becomes a root. -/
theorem root {n : Nat} (h : Forest cr3 priv roots used p) (hfresh : n ∉ used ∧ n ≠ cr3)
    (hfree : ∀ g ∈ p.free, g / PAGE_SIZE ≠ n) (hvacant : ∀ i, priv i = true → child (tab p.mem n i) = none) :
    Forest cr3 priv (n :: roots) (n :: used) p := by
  have hroot : ∀ {q t}, Ok priv (n :: roots) n q → walk child (tab p.mem) n q = some t → q = [] ∧ t = n := by
    intro q t hok hreach
    cases q with
    | nil => exact ⟨rfl, (Option.some.inj hreach).symm⟩
    | cons i q =>
        rw [walk, hvacant i (hok.2.2 i rfl)] at hreach
        cases hreach
  have hold : ∀ {r q}, Ok priv (n :: roots) r q → r = n ∨ Ok priv roots r q := by
    intro r q hok
    rcases List.mem_cons.mp hok.1 with heq | hr
    · exact .inl heq
    · exact .inr ⟨hr, hok.2⟩
  refine ⟨h.free_nodup, h.free_frame, ?_, ?_, ?_, h.vacant, ?_, ?_⟩
  · intro g hg
    refine ⟨fun hin => ?_, (h.free_fresh g hg).2⟩
    rcases List.mem_cons.mp hin with heq | hin
    · exact hfree g hg heq
    · exact (h.free_fresh g hg).1 hin
  · intro r hr
    rcases List.mem_cons.mp hr with rfl | hr
    · exact List.mem_cons_self
    · exact List.mem_cons_of_mem n (h.roots_used r hr)
  · intro hin
    rcases List.mem_cons.mp hin with heq | hin
    · exact hfresh.2 heq.symm
    · exact h.cr3_apart hin
  · intro r q t hok hreach
    rcases hold hok with rfl | hok'
    · obtain ⟨-, rfl⟩ := hroot hok hreach
      exact List.mem_cons_self
    · exact List.mem_cons_of_mem n (h.reach hok' hreach)
  · intro r₁ q₁ r₂ q₂ t hok₁ hok₂ hw₁ hw₂
    rcases hold hok₁ with rfl | hok₁'
    · obtain ⟨rfl, rfl⟩ := hroot hok₁ hw₁
      rcases hold hok₂ with rfl | hok₂'
      · exact ⟨rfl, (hroot hok₂ hw₂).1.symm⟩
      · exact absurd (h.reach hok₂' hw₂) hfresh.1
    · rcases hold hok₂ with rfl | hok₂'
      · obtain ⟨rfl, rfl⟩ := hroot hok₂ hw₂
        exact absurd (h.reach hok₁' hw₁) hfresh.1
      · exact h.sep hok₁' hok₂' hw₁ hw₂

end Forest

/-! ## What the walks do -/

/-- Some free frames went into use. -/
def Took (used : List Nat) (p : Phys) (used' : List Nat) (p' : Phys) : Prop :=
  ∃ new, p.free = new ++ p'.free ∧ ∀ n, n ∈ used' ↔ n ∈ new.map (· / PAGE_SIZE) ∨ n ∈ used

/-- The frames in use after a call: those that left the free stack are. -/
def usedAfter (used : List Nat) (p p' : Phys) : List Nat :=
  (p.free.take (p.free.length - p'.free.length)).map (· / PAGE_SIZE) ++ used

theorem Took.mem_usedAfter {used used' : List Nat} {p p' : Phys} (h : Took used p used' p') (n : Nat) :
    n ∈ usedAfter used p p' ↔ n ∈ used' := by
  obtain ⟨new, hfree, hused⟩ := h
  have hnew : p.free.take (p.free.length - p'.free.length) = new := by
    rw [hfree, List.length_append, Nat.add_sub_cancel, List.take_left]
  rw [usedAfter, List.mem_append, hnew, hused]

/-- `p'` is `p` after building interior tables: some free frames went into use, and no private
translation changed. -/
structure Grown (cr3 : Nat) (priv : Fin 512 → Bool) (roots used : List Nat) (p : Phys) (used' : List Nat)
    (p' : Phys) : Prop where
  forest : Forest cr3 priv roots used' p'
  same : SameTrans priv roots p.mem p'.mem
  taken : Took used p used' p'

/-- Of the tables below the roots, one more is there, for a frame if it was missing. -/
structure Built (priv : Fin 512 → Bool) (roots : List Nat) (p : Phys) (r : Nat) (q : List (Fin 512)) (u : Nat)
    (p' : Phys) : Prop where
  walks : ∀ {r' q'}, Ok priv roots r' q' →
    walk child (tab p'.mem) r' q' = if r' = r ∧ q' = q then some u else walk child (tab p.mem) r' q'
  cost : p.free.length = p'.free.length + if walk child (tab p.mem) r q = none then 1 else 0

section
variable {cr3 : Nat} {priv : Fin 512 → Bool} {roots used used' used'' : List Nat} {p p' p'' : Phys}

/-- A table that was there already. -/
theorem Built.there {r u : Nat} {q : List (Fin 512)} (h : walk child (tab p.mem) r q = some u)
    (hwalks : ∀ r' q', walk child (tab p'.mem) r' q' = walk child (tab p.mem) r' q') (hfree : p'.free = p.free) :
    Built priv roots p r q u p' := by
  refine ⟨fun {r' q'} _ => ?_, ?_⟩
  · rw [hwalks]
    split
    · next hat => rw [hat.1, hat.2, h]
    · rfl
  · rw [hfree, h, if_neg (fun hnone => by cases hnone), Nat.add_zero]

theorem Built.walk_eq {r u : Nat} {q : List (Fin 512)} (h : Built priv roots p r q u p') (hok : Ok priv roots r q) :
    walk child (tab p'.mem) r q = some u := by
  rw [h.walks hok, if_pos ⟨rfl, rfl⟩]

theorem Took.refl (hfree : p'.free = p.free) : Took used p used p' :=
  ⟨[], hfree.symm, fun _ => ⟨.inr, fun hin => hin.resolve_left List.not_mem_nil⟩⟩

theorem Took.congr_free (h : Took used p used' p') (hfree : p''.free = p'.free) : Took used p used' p'' := by
  obtain ⟨new, hnew, hused⟩ := h
  exact ⟨new, hfree ▸ hnew, hused⟩

theorem Took.trans (h : Took used p used' p') (h' : Took used' p' used'' p'') : Took used p used'' p'' := by
  obtain ⟨new, hfree, hused⟩ := h
  obtain ⟨new', hfree', hused'⟩ := h'
  refine ⟨new ++ new', ?_, ?_⟩
  · rw [hfree, hfree', List.append_assoc]
  · intro n
    rw [hused', hused, List.map_append, List.mem_append]
    constructor
    · rintro (hin | hin | hin)
      · exact .inl (.inr hin)
      · exact .inl (.inl hin)
      · exact .inr hin
    · rintro ((hin | hin) | hin)
      · exact .inr (.inl hin)
      · exact .inl hin
      · exact .inr (.inr hin)

theorem Grown.refl (h : Forest cr3 priv roots used p) : Grown cr3 priv roots used p used p :=
  ⟨h, fun _ _ _ _ => rfl, Took.refl rfl⟩

theorem Grown.trans (h : Grown cr3 priv roots used p used' p') (h' : Grown cr3 priv roots used' p' used'' p'') :
    Grown cr3 priv roots used p used'' p'' :=
  ⟨h'.forest, h.same.trans h'.same, h.taken.trans h'.taken⟩

/-- What one level of the walk ends in: out of frames and nothing changed, or the next table. -/
def Ensures (ensure : Phys → Nat → Nat → Option Nat × Phys) : Prop :=
  ∀ {cr3 : Nat} {priv : Fin 512 → Bool} {roots used : List Nat} {p : Phys} {r t : Nat} {q : List (Fin 512)}
    {i : Fin 512}, Forest cr3 priv roots used p → Ok priv roots r (q ++ [i]) →
    walk child (tab p.mem) r q = some t →
    ensure p (PAGE_SIZE * t) i = (none, p) ∧ p.free = [] ∧ walk child (tab p.mem) r (q ++ [i]) = none ∨
      ∃ u used' p', ensure p (PAGE_SIZE * t) i = (some (PAGE_SIZE * u), p') ∧
        Grown cr3 priv roots used p used' p' ∧ Built priv roots p r (q ++ [i]) u p'

end

/-- Writing words of a frame is seen in that frame only. -/
theorem tab_writes (g : Nat → Nat) (f : Nat) (is : List Nat) (his : ∀ i ∈ is, i < 512) (m : Mem) (n : Nat)
    (j : Fin 512) :
    tab (is.foldl (fun m i => Function.update m (PAGE_SIZE * f + 8 * i) (g i)) m) n j =
      if n = f ∧ (j : Nat) ∈ is then g j else tab m n j := by
  induction is generalizing m with
  | nil => simp
  | cons i is ih =>
      rw [List.foldl_cons, ih fun k hk => his k (List.mem_cons_of_mem i hk)]
      have hstep := congrFun (congrFun (tab_update m f ⟨i, his i List.mem_cons_self⟩ (g i)) n) j
      dsimp only at hstep
      rw [hstep, Radix.set]
      by_cases hn : n = f
      · by_cases hin : (j : Nat) ∈ is
        · rw [if_pos ⟨hn, hin⟩, if_pos ⟨hn, List.mem_cons_of_mem i hin⟩]
        · rw [if_neg (fun hat => hin hat.2)]
          by_cases hj : (j : Nat) = i
          · rw [if_pos ⟨hn, Fin.ext hj⟩, if_pos ⟨hn, hj ▸ List.mem_cons_self⟩, hj]
          · rw [if_neg (fun hat => hj (congrArg Fin.val hat.2)), if_neg]
            rintro ⟨-, hmem⟩
            exact (List.mem_cons.mp hmem).elim hj hin
      · rw [if_neg (fun hat => hn hat.1), if_neg (fun hat => hn hat.1), if_neg (fun hat => hn hat.1)]

/-- A filled table holds the words it was given, read before it was written: they do not lie in it. -/
theorem tab_fillTable (m : Mem) (f : Nat) (g : Mem → Nat → Nat)
    (hg : ∀ m' i, (∀ n ≠ f, ∀ j, tab m' n j = tab m n j) → i < 512 → g m' i = g m i) (n : Nat) (j : Fin 512) :
    tab (fillTable m (PAGE_SIZE * f) g) n j = if n = f then g m j else tab m n j := by
  have hloop : ∀ (is : List Nat) (m' : Mem), (∀ i ∈ is, i < 512) → (∀ n ≠ f, ∀ j, tab m' n j = tab m n j) →
      is.foldl (fun m i => Function.update m (PAGE_SIZE * f + 8 * i) (g m i)) m' =
        is.foldl (fun m' i => Function.update m' (PAGE_SIZE * f + 8 * i) (g m i)) m' := by
    intro is
    induction is with
    | nil => intro m' _ _; rfl
    | cons i is ih =>
        intro m' his hsame
        rw [List.foldl_cons, List.foldl_cons, hg m' i hsame (his i List.mem_cons_self)]
        refine ih _ (fun k hk => his k (List.mem_cons_of_mem i hk)) fun n hn j => ?_
        have hstep := congrFun (congrFun (tab_update m' f ⟨i, his i List.mem_cons_self⟩ (g m i)) n) j
        dsimp only at hstep
        rw [hstep, set_of_ne (fun hat => hn hat.1), hsame n hn j]
  -- the 512 indices as a list of their own, so that nothing evaluates the range
  obtain ⟨is, his⟩ : ∃ is, is = List.range ENTRIES := ⟨_, rfl⟩
  have hlt : ∀ i, i ∈ is ↔ i < 512 := by
    intro i
    rw [his, List.mem_range, ENTRIES]
  unfold fillTable
  rw [← his, hloop is m (fun i hi => (hlt i).mp hi) fun _ _ _ => rfl,
    tab_writes (g m) f is (fun i hi => (hlt i).mp hi) m n j]
  exact if_congr ⟨fun hat => hat.1, fun hat => ⟨hat, (hlt j).mpr j.isLt⟩⟩ rfl rfl

theorem tab_zeroTable (p : Phys) (f n : Nat) (j : Fin 512) :
    tab (p.zeroTable (PAGE_SIZE * f)).mem n j = if n = f then 0 else tab p.mem n j :=
  tab_fillTable p.mem f (fun _ _ => 0) (fun _ _ _ _ => rfl) n j

/-- The frame on top of the free stack is nobody's. -/
theorem Forest.pop {cr3 : Nat} {priv : Fin 512 → Bool} {roots used : List Nat} {p : Phys} {f : Nat} {rest : List Nat}
    (h : Forest cr3 priv roots used p) (hfree : p.free = f :: rest) :
    ∃ n, f = PAGE_SIZE * n ∧ f < 2 ^ 48 ∧ (n ∉ used ∧ n ≠ cr3) ∧ (∀ g ∈ rest, g / PAGE_SIZE ≠ n) ∧
      Forest cr3 priv roots used { p with free := rest } := by
  have hmem : f ∈ p.free := hfree ▸ List.mem_cons_self
  obtain ⟨hdvd, hlt⟩ := h.free_frame f hmem
  obtain ⟨n, rfl⟩ := hdvd
  have hfresh := h.free_fresh _ hmem
  rw [Nat.mul_div_cancel_left n (by decide)] at hfresh
  have hnodup := h.free_nodup
  rw [hfree, List.nodup_cons] at hnodup
  have hrest : ∀ g ∈ rest, g ∈ p.free := fun g hg => hfree ▸ List.mem_cons_of_mem _ hg
  refine ⟨n, rfl, hlt, hfresh, ?_, ?_⟩
  · intro g hg heq
    refine hnodup.1 ?_
    rw [← heq, Nat.mul_div_cancel' (h.free_frame g (hrest g hg)).1]
    exact hg
  · exact h.refree hnodup.2 (fun g hg => h.free_frame g (hrest g hg)) (fun g hg => h.free_fresh g (hrest g hg))

/-- A table entry made for a frame points at it. -/
theorem child_makeEntry {n attrs : Nat} (hlt : PAGE_SIZE * n < 2 ^ 48) (hattrs : Attrs attrs) :
    child (makeEntry (PAGE_SIZE * n) attrs) = some n := by
  rw [child, if_pos (valid_makeEntry hattrs), entryAddr_makeEntry hattrs.1,
    entryAddr_of_frame (Nat.dvd_mul_right _ _) hlt, Nat.mul_div_cancel_left n (by decide)]

/-- Building a missing table, for either mapper's interior entry. -/
theorem grown_splice {cr3 : Nat} {priv : Fin 512 → Bool} {roots used : List Nat} {p : Phys} {r t f : Nat}
    {q : List (Fin 512)} {i : Fin 512} {rest : List Nat} (h : Forest cr3 priv roots used p)
    (hok : Ok priv roots r (q ++ [i])) (hwalk : walk child (tab p.mem) r q = some t)
    (hvacant : child (tab p.mem t i) = none) (hfree : p.free = f :: rest) {attrs : Nat}
    (hattrs : Attrs attrs) :
    ∃ u used', f = PAGE_SIZE * u ∧
      Grown cr3 priv roots used p used'
        (({ p with free := rest }.zeroTable f).write (PAGE_SIZE * t + 8 * i) (makeEntry f attrs)) ∧
      Built priv roots p r (q ++ [i]) u
        (({ p with free := rest }.zeroTable f).write (PAGE_SIZE * t + 8 * i) (makeEntry f attrs)) := by
  obtain ⟨n, rfl, hlt, hfresh, hrest, hpopped⟩ := h.pop hfree
  have habove := hok.above q i (List.prefix_refl _)
  -- zeroing the frame is seen by nobody
  have hother : ∀ m, m ≠ n → ∀ j,
      tab ({ p with free := rest }.zeroTable (PAGE_SIZE * n)).mem m j = tab p.mem m j := by
    intro m hm j
    rw [tab_zeroTable, if_neg hm]
  have hkept : ∀ m, m ∈ used → ∀ j,
      tab ({ p with free := rest }.zeroTable (PAGE_SIZE * n)).mem m j = tab p.mem m j := by
    intro m hm
    refine hother m ?_
    rintro rfl
    exact hfresh.1 hm
  obtain ⟨hforest, hsame⟩ := hpopped.frame ({ p with free := rest }.zeroTable (PAGE_SIZE * n)).mem hkept
    (fun j _ => hother cr3 hfresh.2.symm j)
  have hzero : ∀ j, tab ({ p with free := rest }.zeroTable (PAGE_SIZE * n)).mem n j = 0 := by
    intro j
    rw [tab_zeroTable, if_pos rfl]
  have hwalks : ∀ {r' q'}, Ok priv roots r' q' →
      walk child (tab ({ p with free := rest }.zeroTable (PAGE_SIZE * n)).mem) r' q' = walk child (tab p.mem) r' q' :=
    fun hok' => walk_congr fun q' j u hpre hreach => hkept u (h.reach (hok'.above q' j hpre) hreach) j
  have hvacant' : child (tab ({ p with free := rest }.zeroTable (PAGE_SIZE * n)).mem t i) = none := by
    rw [hkept t (h.reach habove hwalk) i]
    exact hvacant
  obtain ⟨hforest', hsame', hnew⟩ :=
    hforest.splice hok ((hwalks habove).trans hwalk) hvacant' (child_makeEntry hlt hattrs) hzero hfresh hrest
  refine ⟨n, n :: used, rfl, ⟨hforest', ?_, [PAGE_SIZE * n], hfree, ?_⟩, ?_, ?_⟩
  · exact hsame.trans hsame'
  · intro m
    rw [List.mem_cons, List.map_singleton, List.mem_singleton, Nat.mul_div_cancel_left n (by decide)]
  · intro r' q' hok'
    rw [← hwalks hok']
    exact hnew hok'
  · rw [walk_snoc hwalk, hvacant, if_pos rfl, hfree]
    rfl

theorem ensures_ensureTable : Ensures Phys.ensureTable := by
  intro cr3 priv roots used p r t q i h hok hwalk
  rw [Phys.ensureTable]
  change (if entryIsValid (tab p.mem t i) = true then _ else _) = _ ∧ _ ∨
    ∃ u used' p', (if entryIsValid (tab p.mem t i) = true then (some (entryAddr (tab p.mem t i)), p) else _) = _ ∧ _
  cases hvalid : entryIsValid (tab p.mem t i) with
  | true =>
      refine .inr ⟨entryAddr (tab p.mem t i) / PAGE_SIZE, used, p, ?_, Grown.refl h, Built.there ?_ (fun _ _ => rfl) rfl⟩
      · rw [if_pos rfl, Nat.mul_div_cancel' (entryAddr_dvd _)]
      · rw [walk_snoc hwalk, child, if_pos hvalid]
  | false =>
      have hvacant : child (tab p.mem t i) = none := by rw [child, hvalid]; rfl
      rw [if_neg Bool.false_ne_true, if_neg Bool.false_ne_true, Phys.frameAlloc]
      cases hfree : p.free with
      | nil => exact .inl ⟨rfl, rfl, (walk_snoc hwalk i).trans hvacant⟩
      | cons f rest =>
          obtain ⟨u, used', rfl, hgrown, hnew⟩ := grown_splice h hok hwalk hvacant hfree attrs_table
          exact .inr ⟨u, used', _, rfl, hgrown, hnew⟩

/-- The user bit is not part of where an entry points. -/
theorem child_user (e : Nat) : child (e ||| PTE_US) = child e := by
  have hvalid : entryIsValid (e ||| PTE_US) = entryIsValid e := by
    have hbit : PTE_US &&& 1 = 0 := by decide
    rw [entryIsValid, entryIsValid, Nat.and_or_distrib_right, hbit, Nat.or_zero]
  have haddr : entryAddr (e ||| PTE_US) = entryAddr e := by
    have hmask : PTE_US &&& ENTRY_ADDR_MASK = 0 := by decide
    rw [entryAddr, entryAddr, Nat.and_or_distrib_right, hmask, Nat.or_zero]
  rw [child, child, hvalid, haddr]

theorem ensures_ensureTableUser : Ensures Phys.ensureTableUser := by
  intro cr3 priv roots used p r t q i h hok hwalk
  have hlen : q.length ≤ 2 := by
    have := hok.2.1
    rw [List.length_append, List.length_singleton] at this
    omega
  rw [Phys.ensureTableUser]
  change (if entryIsValid (tab p.mem t i) = true then _ else _) = _ ∧ _ ∨
    ∃ u used' p', (if entryIsValid (tab p.mem t i) = true then (some (entryAddr (tab p.mem t i)), _) else _) = _ ∧ _
  cases hvalid : entryIsValid (tab p.mem t i) with
  | true =>
      have hnext : walk child (tab p.mem) r (q ++ [i]) = some (entryAddr (tab p.mem t i) / PAGE_SIZE) := by
        rw [walk_snoc hwalk, child, if_pos hvalid]
      obtain ⟨hforest, hsame, hwalks⟩ := h.relink (hok.above q i (List.prefix_refl _)) hlen hwalk
        (child_user (tab p.mem t i))
      rw [if_pos rfl, if_pos rfl]
      by_cases huser : p.mem (PAGE_SIZE * t + 8 * i) &&& PTE_US = 0
      · rw [if_pos huser]
        refine .inr ⟨entryAddr (tab p.mem t i) / PAGE_SIZE, used, _, ?_, ⟨hforest, hsame, Took.refl rfl⟩,
          Built.there hnext hwalks rfl⟩
        rw [Nat.mul_div_cancel' (entryAddr_dvd _)]
        rfl
      · rw [if_neg huser]
        refine .inr ⟨entryAddr (tab p.mem t i) / PAGE_SIZE, used, p, ?_, Grown.refl h,
          Built.there hnext (fun _ _ => rfl) rfl⟩
        rw [Nat.mul_div_cancel' (entryAddr_dvd _)]
  | false =>
      have hvacant : child (tab p.mem t i) = none := by rw [child, hvalid]; rfl
      rw [if_neg Bool.false_ne_true, if_neg Bool.false_ne_true, Phys.frameAlloc]
      cases hfree : p.free with
      | nil => exact .inl ⟨rfl, rfl, (walk_snoc hwalk i).trans hvacant⟩
      | cons f rest =>
          obtain ⟨u, used', rfl, hgrown, hnew⟩ := grown_splice h hok hwalk hvacant hfree attrs_userTable
          exact .inr ⟨u, used', _, rfl, hgrown, hnew⟩

/-! ## The mappers -/

/-- Two addresses in one page. -/
def SamePage (va va' : Nat) : Prop := path va' = path va ∧ idx va' SHIFT_4K = idx va SHIFT_4K

instance (va va' : Nat) : Decidable (SamePage va va') := inferInstanceAs (Decidable (_ ∧ _))

/-- The page of `va` in `r` translates to `new`, and every other translation is as it was. -/
def Remapped (priv : Fin 512 → Bool) (roots : List Nat) (m m' : Mem) (r va : Nat) (new : Option Nat) : Prop :=
  ∀ r' ∈ roots, ∀ va', priv (idx va' SHIFT_512G) = true →
    vaToPaInRoot m' (PAGE_SIZE * r') va' =
      if r' = r ∧ SamePage va va' then new else vaToPaInRoot m (PAGE_SIZE * r') va'

/-- The interior paths of an address below the root: the tables a mapping of it goes through. -/
def tablesOf (va : Nat) : Finset (List (Fin 512)) :=
  {[idx va SHIFT_512G], [idx va SHIFT_512G, idx va SHIFT_1G], path va}

/-- How many of the tables are not there. -/
def missing (mem : Mem) (r : Nat) (ts : Finset (List (Fin 512))) : Nat :=
  (ts.filter fun q => walk child (tab mem) r q = none).card

section
variable {cr3 : Nat} {priv : Fin 512 → Bool} {roots used : List Nat} {p p' p'' : Phys} {r va : Nat}
  {ts : Finset (List (Fin 512))}

theorem missing_congr {m m' : Mem}
    (h : ∀ q ∈ ts, walk child (tab m') r q = none ↔ walk child (tab m) r q = none) :
    missing m' r ts = missing m r ts :=
  congrArg Finset.card (Finset.filter_congr h)

/-- Every frame taken is a missing table less. -/
def Paid (r : Nat) (ts : Finset (List (Fin 512))) (p p' : Phys) : Prop :=
  missing p.mem r ts + p'.free.length = missing p'.mem r ts + p.free.length

theorem Paid.trans (h : Paid r ts p p') (h' : Paid r ts p' p'') : Paid r ts p p'' := by
  rw [Paid] at h h' ⊢
  omega

theorem Built.paid {q : List (Fin 512)} {u : Nat} (h : Built priv roots p r q u p')
    (hok : ∀ q ∈ ts, Ok priv roots r q) (hq : q ∈ ts) : Paid r ts p p' := by
  have hcost := h.cost
  rw [Paid]
  by_cases hnone : walk child (tab p.mem) r q = none
  · rw [if_pos hnone] at hcost
    rw [missing, missing]
    have herase : ts.filter (fun q' => walk child (tab p'.mem) r q' = none) =
        (ts.filter fun q' => walk child (tab p.mem) r q' = none).erase q := by
      ext q'
      rw [Finset.mem_erase, Finset.mem_filter, Finset.mem_filter]
      constructor
      · rintro ⟨hmem, hno⟩
        rw [h.walks (hok q' hmem)] at hno
        split at hno
        · cases hno
        · next hne => exact ⟨fun heq => hne ⟨rfl, heq⟩, hmem, hno⟩
      · rintro ⟨hne, hmem, hno⟩
        refine ⟨hmem, ?_⟩
        rw [h.walks (hok q' hmem), if_neg (fun hat => hne hat.2)]
        exact hno
    have hmem : q ∈ ts.filter fun q' => walk child (tab p.mem) r q' = none := Finset.mem_filter.mpr ⟨hq, hnone⟩
    have hpos : 0 < (ts.filter fun q' => walk child (tab p.mem) r q' = none).card := Finset.card_pos.mpr ⟨q, hmem⟩
    rw [herase, Finset.card_erase_of_mem hmem]
    omega
  · rw [if_neg hnone, Nat.add_zero] at hcost
    have hsame : missing p'.mem r ts = missing p.mem r ts := by
      refine missing_congr fun q' hmem => ?_
      rw [h.walks (hok q' hmem)]
      split
      · next hat =>
          rw [hat.2]
          exact ⟨fun hno => (by cases hno), fun hno => absurd hno hnone⟩
      · rfl
    rw [hsame, hcost]

theorem ok_tablesOf (hr : r ∈ roots) (hva : priv (idx va SHIFT_512G) = true) :
    ∀ q ∈ tablesOf va, Ok priv roots r q := by
  intro q hq
  have hok := ok_path hr hva
  have hok₂ := hok.above [idx va SHIFT_512G, idx va SHIFT_1G] (idx va SHIFT_2M) (List.prefix_refl _)
  rw [tablesOf, Finset.mem_insert, Finset.mem_insert, Finset.mem_singleton] at hq
  rcases hq with rfl | rfl | rfl
  · exact hok₂.above [idx va SHIFT_512G] (idx va SHIFT_1G) (List.prefix_refl _)
  · exact hok₂
  · exact hok

theorem missing_pos {mem : Mem} {q : List (Fin 512)} (hq : q ∈ ts) (h : walk child (tab mem) r q = none) :
    0 < missing mem r ts :=
  Finset.card_pos.mpr ⟨q, Finset.mem_filter.mpr ⟨hq, h⟩⟩

/-- The tables above a page table are there. -/
theorem missing_of_path {mem : Mem} {pt : Nat} (h : walk child (tab mem) r (path va) = some pt) :
    missing mem r (tablesOf va) = 0 := by
  have habove : ∀ q s, path va = q ++ s → walk child (tab mem) r q ≠ none := by
    intro q s heq hnone
    rw [heq, walk_append, hnone] at h
    cases h
  refine Finset.card_eq_zero.mpr (Finset.filter_eq_empty_iff.mpr fun q hq => ?_)
  rw [tablesOf, Finset.mem_insert, Finset.mem_insert, Finset.mem_singleton] at hq
  rcases hq with rfl | rfl | rfl
  · exact habove _ [idx va SHIFT_1G, idx va SHIFT_2M] rfl
  · exact habove _ [idx va SHIFT_2M] rfl
  · exact habove _ [] (List.append_nil _).symm

/-- Mapping a page: tables are built, then one leaf is written; or the frames run out on the way. -/
theorem mapWith_spec {ensure : Phys → Nat → Nat → Option Nat × Phys} (hens : Ensures ensure)
    (h : Forest cr3 priv roots used p) (hr : r ∈ roots) (hva : priv (idx va SHIFT_512G) = true) (leaf : Nat)
    (hts : ∀ q ∈ ts, Ok priv roots r q) (hsub : tablesOf va ⊆ ts) :
    ∃ used' mid, Grown cr3 priv roots used p used' mid ∧
      (p.mapWith ensure (PAGE_SIZE * r) va leaf = (false, mid) ∧ p.free.length < missing p.mem r ts ∨
        ∃ p', p.mapWith ensure (PAGE_SIZE * r) va leaf = (true, p') ∧ p'.free = mid.free ∧ Paid r ts p p' ∧
          missing p'.mem r (tablesOf va) = 0 ∧ Forest cr3 priv roots used' p' ∧
          Remapped priv roots p.mem p'.mem r va (leafOf leaf)) := by
  have hok := ok_path hr hva
  have hok₂ := hok.above [idx va SHIFT_512G, idx va SHIFT_1G] (idx va SHIFT_2M) (List.prefix_refl _)
  have hok₁ := hok₂.above [idx va SHIFT_512G] (idx va SHIFT_1G) (List.prefix_refl _)
  have hin₁ : [idx va SHIFT_512G] ∈ ts := hsub (Finset.mem_insert_self _ _)
  have hin₂ : [idx va SHIFT_512G, idx va SHIFT_1G] ∈ ts :=
    hsub (Finset.mem_insert_of_mem (Finset.mem_insert_self _ _))
  have hin₃ : path va ∈ ts :=
    hsub (Finset.mem_insert_of_mem (Finset.mem_insert_of_mem (Finset.mem_singleton_self _)))
  -- out of frames with a table of `ts` still missing: there were too few to begin with
  have hshort : ∀ {m : Phys} {q}, Paid r ts p m → m.free = [] → q ∈ ts → walk child (tab m.mem) r q = none →
      p.free.length < missing p.mem r ts := by
    intro m q hpaid hfree hq hnone
    have hpos := missing_pos hq hnone
    rw [Paid, hfree, List.length_nil] at hpaid
    omega
  rw [Phys.mapWith]
  rcases hens (q := []) (i := idx va SHIFT_512G) h hok₁ rfl with
    ⟨heq, hfree, hnone⟩ | ⟨pdpt, used₁, p₁, heq₁, hg₁, hb₁⟩
  · rw [idx] at heq
    rw [heq]
    exact ⟨used, p, Grown.refl h, .inl ⟨rfl, hshort rfl hfree hin₁ hnone⟩⟩
  have hp₁ := hb₁.paid hts hin₁
  rw [idx] at heq₁
  rw [heq₁]
  dsimp only
  rcases hens (i := idx va SHIFT_1G) hg₁.forest hok₂ (hb₁.walk_eq hok₁) with
    ⟨heq, hfree, hnone⟩ | ⟨pd, used₂, p₂, heq₂, hg₂, hb₂⟩
  · rw [idx] at heq
    rw [heq]
    exact ⟨used₁, p₁, hg₁, .inl ⟨rfl, hshort hp₁ hfree hin₂ hnone⟩⟩
  have hp₂ := hp₁.trans (hb₂.paid hts hin₂)
  rw [idx] at heq₂
  rw [heq₂]
  dsimp only
  rcases hens (i := idx va SHIFT_2M) hg₂.forest hok (hb₂.walk_eq hok₂) with
    ⟨heq, hfree, hnone⟩ | ⟨pt, used₃, p₃, heq₃, hg₃, hb₃⟩
  · rw [idx] at heq
    rw [heq]
    exact ⟨used₂, p₂, hg₁.trans hg₂, .inl ⟨rfl, hshort hp₂ hfree hin₃ hnone⟩⟩
  have hp₃ := hp₂.trans (hb₃.paid hts hin₃)
  rw [idx] at heq₃
  rw [heq₃]
  have hgrown := (hg₁.trans hg₂).trans hg₃
  obtain ⟨hforest, htrans, hwalks⟩ := hg₃.forest.leaf hr hva (hb₃.walk_eq hok) leaf
  refine ⟨used₃, p₃, hgrown, .inr ⟨_, rfl, rfl, ?_, missing_of_path ((hwalks hok).trans (hb₃.walk_eq hok)), hforest, ?_⟩⟩
  · have hsame := missing_congr fun q hq => Eq.congr_left (z := none) (hwalks (hts q hq))
    exact hp₃.trans (congrArg (· + p₃.free.length) hsame.symm)
  · intro r' hr' va' hva'
    rw [← hgrown.same r' hr' va' hva']
    exact htrans r' hr' va' hva'

theorem leafOf_makeEntry {pa attrs : Nat} (h : Attrs attrs) : leafOf (makeEntry pa attrs) = some (entryAddr pa) := by
  rw [leafOf, PTE_P, present_makeEntry h, if_neg (by decide), entryAddr_makeEntry h.1]

/-- Unmapping a page clears one leaf, and answers what the page translated to. -/
theorem unmap_spec (h : Forest cr3 priv roots used p) (hr : r ∈ roots) (hva : priv (idx va SHIFT_512G) = true) :
    (p.unmapInRoot (PAGE_SIZE * r) va).1 = vaToPaInRoot p.mem (PAGE_SIZE * r) va ∧
      (p.unmapInRoot (PAGE_SIZE * r) va).2.free = p.free ∧
      Forest cr3 priv roots used (p.unmapInRoot (PAGE_SIZE * r) va).2 ∧
      Remapped priv roots p.mem (p.unmapInRoot (PAGE_SIZE * r) va).2.mem r va none := by
  -- nothing to clear: the page had no translation already
  have hkeep : vaToPaInRoot p.mem (PAGE_SIZE * r) va = none → Remapped priv roots p.mem p.mem r va none := by
    intro hnone r' hr' va' hva'
    split
    · next hat =>
        obtain ⟨rfl, hpath, hidx⟩ := hat
        rw [← hnone, vaToPa_eq, vaToPa_eq, hpath, hidx]
    · rfl
  have htrans := vaToPa_eq p.mem r va
  rw [Phys.unmapInRoot, walkToPt_eq]
  cases hwalk : walk child (tab p.mem) r (path va) with
  | none =>
      rw [hwalk] at htrans
      exact ⟨htrans.symm, rfl, h, hkeep htrans⟩
  | some pt =>
      rw [hwalk, Option.bind_some, leafOf] at htrans
      rw [Option.map_some]
      change (if tab p.mem pt (idx va SHIFT_4K) &&& PTE_P = 0 then _ else _ : Option Nat × Phys).1 = _ ∧ _
      by_cases hp : tab p.mem pt (idx va SHIFT_4K) &&& PTE_P = 0
      · rw [if_pos hp] at htrans
        have hp' : p.mem (PAGE_SIZE * pt + 8 * levelIndex va SHIFT_4K) &&& PTE_P = 0 := hp
        dsimp only
        rw [if_pos hp, if_pos hp']
        exact ⟨htrans.symm, rfl, h, hkeep htrans⟩
      · rw [if_neg hp] at htrans
        have hp' : ¬ p.mem (PAGE_SIZE * pt + 8 * levelIndex va SHIFT_4K) &&& PTE_P = 0 := hp
        dsimp only
        rw [if_neg hp, if_neg hp']
        obtain ⟨hforest, hleaf, -⟩ := h.leaf hr hva hwalk 0
        exact ⟨htrans.symm, rfl, hforest, hleaf⟩

/-- A new root shares the live one's entries, and so none through its private slots. -/
theorem addressSpaceNew_spec (h : Forest cr3 priv roots used p) :
    p.addressSpaceNew (PAGE_SIZE * cr3) = (none, p) ∨
      ∃ n p', p.addressSpaceNew (PAGE_SIZE * cr3) = (some (PAGE_SIZE * n), p') ∧ n ∉ used ∧
        Forest cr3 priv (n :: roots) (n :: used) p' ∧ p.free = PAGE_SIZE * n :: p'.free ∧
        SameTrans priv roots p.mem p'.mem ∧
        ∀ va, priv (idx va SHIFT_512G) = true → vaToPaInRoot p'.mem (PAGE_SIZE * n) va = none := by
  rw [Phys.addressSpaceNew, Phys.frameAlloc]
  cases hfree : p.free with
  | nil => exact .inl rfl
  | cons f rest =>
      obtain ⟨n, rfl, -, hfresh, hrest, hpopped⟩ := h.pop hfree
      obtain ⟨mem', hmem'⟩ : ∃ mem', mem' = fillTable p.mem (PAGE_SIZE * n) fun m i => m (PAGE_SIZE * cr3 + 8 * i) :=
        ⟨_, rfl⟩
      have htab : ∀ m j, tab mem' m j = if m = n then tab p.mem cr3 j else tab p.mem m j := by
        intro m j
        rw [hmem']
        refine tab_fillTable p.mem n _ ?_ m j
        intro m' i hsame hi
        exact hsame cr3 hfresh.2.symm ⟨i, hi⟩
      have hkept : ∀ m, m ≠ n → ∀ j, tab mem' m j = tab p.mem m j := by
        intro m hm j
        rw [htab, if_neg hm]
      have hvacant : ∀ i, priv i = true → child (tab mem' n i) = none := by
        intro i hi
        rw [htab, if_pos rfl]
        exact h.vacant i hi
      obtain ⟨hforest, hsame⟩ := hpopped.frame mem' (fun m hm => hkept m (by rintro rfl; exact hfresh.1 hm))
        (fun j _ => hkept cr3 hfresh.2.symm j)
      dsimp only
      rw [← hmem']
      refine .inr ⟨n, ⟨mem', rest⟩, rfl, hfresh.1, hforest.root hfresh hrest hvacant, rfl, hsame, ?_⟩
      intro va hva
      rw [vaToPa_eq, path, walk, hvacant _ hva]
      rfl

end

end Yuva.Mmu
