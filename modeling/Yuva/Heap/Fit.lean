/-
# `Yuva.Heap.Fit` — first fit misses no placement, and `alloc` returns

`fit` looks at one start of a block, or at two.  A `Placement` is any start it could have
looked at: aligned, with the payload inside the block and each gap empty or long enough for a
header.

**Proved here.**  In a block that starts at a header boundary `fit` answers the least placement
there is, or none where there is none (`fit_isLeast`).  A later start could only help by using
up a back gap that is too small, which is less than one step of any alignment above the header's,
and at the header's alignment the first start is the start of the block.  Along every run of the
heap a pass fails only if no free block has a placement, and the loop of `alloc` returns
whatever the frame allocator grants: every grow that is not a failure takes a page of the
window (`alloc_complete`).
-/
import Mathlib.Order.Bounds.Basic
import Yuva.Heap.Run

namespace Yuva.Heap

open Yuva.Machine Yuva.Region Yuva.Run

/-- A start the block admits. -/
structure Placement (start bsize size align a : Nat) : Prop where
  above : start ≤ a
  aligned : align ∣ a
  inside : a + size ≤ start + bsize
  front : a - start = 0 ∨ MIN_BLOCK ≤ a - start
  back : start + bsize - (a + size) = 0 ∨ MIN_BLOCK ≤ start + bsize - (a + size)

/-! ## The starts `fit` looks at -/

theorem le_of_alignUp {addr k a x : Nat} (hk : k ≤ 64) (h : alignUpChecked addr (2 ^ k) = some a) (hx : addr ≤ x)
    (hdvd : 2 ^ k ∣ x) : a ≤ x := by
  obtain ⟨-, hlt, ha⟩ := alignUpChecked_spec hk h
  by_contra hgt
  have hstep : 2 ^ k ≤ a - x := Nat.le_of_dvd (by omega) (Nat.dvd_sub ha hdvd)
  omega

/-- The sum overflows only where no multiple is left below it. -/
theorem alignUp_none {addr k x : Nat} (hk : k ≤ 64) (h : alignUpChecked addr (2 ^ k) = none) (hx : addr ≤ x)
    (hdvd : 2 ^ k ∣ x) : 2 ^ 64 ≤ x := by
  by_contra hlt
  have hstep : 2 ^ k ≤ 2 ^ 64 - x := Nat.le_of_dvd (by omega) (Nat.dvd_sub (Nat.pow_dvd_pow 2 hk) hdvd)
  have hpos := Nat.two_pow_pos k
  rw [alignUpChecked, if_pos (by omega)] at h
  cases h

/-- A start with a lawful front gap. -/
def Fronted (start align x : Nat) : Prop := start ≤ x ∧ align ∣ x ∧ (x - start = 0 ∨ MIN_BLOCK ≤ x - start)

/-- Past an unlawful gap the next lawful one is at least a header long. -/
theorem Fronted.past {start k x b : Nat} (h : Fronted start (2 ^ k) x) (hk : k ≤ 63)
    (hb : alignUpChecked start (2 ^ k) = some b) (hgap : b - start ≠ 0 ∧ b - start < MIN_BLOCK) :
    start + MIN_BLOCK ≤ x := by
  have hle := le_of_alignUp (by omega) hb h.1 h.2.1
  have hfront := h.2.2
  omega

theorem le_of_fitStart {start k a x : Nat} (hk : k ≤ 63) (h : fitStart start (2 ^ k) = some a)
    (hx : Fronted start (2 ^ k) x) : a ≤ x := by
  rw [fitStart] at h
  split at h
  · cases h
  · next b hb =>
      dsimp only at h
      split at h
      case isTrue hgap =>
        split at h
        · exact le_of_alignUp (by omega) h (hx.past hk hb hgap) hx.2.1
        · cases h
      case isFalse =>
        rw [← Option.some.inj h]
        exact le_of_alignUp (by omega) hb hx.1 hx.2.1

theorem fitStart_none {start k x : Nat} (hk : k ≤ 63) (h : fitStart start (2 ^ k) = none)
    (hx : Fronted start (2 ^ k) x) : 2 ^ 64 ≤ x := by
  rw [fitStart] at h
  split at h
  · next hnone => exact alignUp_none (by omega) hnone hx.1 hx.2.1
  · next b hb =>
      dsimp only at h
      split at h
      case isTrue hgap =>
        have hpast := hx.past hk hb hgap
        split at h
        · exact alignUp_none (by omega) h hpast hx.2.1
        · omega
      case isFalse => cases h

/-! ## The placement `fit` answers -/

section

variable {start bsize size k : Nat}

theorem Placement.fronted {align a : Nat} (h : Placement start bsize size align a) : Fronted start align a :=
  ⟨h.above, h.aligned, h.front⟩

/-- A start with a back gap that is too small leaves no placement behind it. -/
theorem no_later {a x : Nat} (hk : k ≤ 63) (hk3 : 3 ≤ k) (hstart : HEADER_ALIGN ∣ start)
    (ha : fitStart start (2 ^ k) = some a) (hback : start + bsize - (a + size) ≠ 0)
    (hshort : start + bsize - (a + size) < MIN_BLOCK) (hx : Placement start bsize size (2 ^ k) x) : False := by
  obtain ⟨hge, hdvd, -⟩ := fitStart_spec hk ha
  have hle := le_of_fitStart hk ha hx.fronted
  have hin := hx.inside
  have hxback := hx.back
  have hxfront := hx.front
  have hne : x ≠ a := by
    rintro rfl
    omega
  have hstep : 2 ^ k ≤ x - a := Nat.le_of_dvd (by omega) (Nat.dvd_sub hx.aligned hdvd)
  have hmin : MIN_BLOCK = 16 := rfl
  rcases Nat.eq_or_lt_of_le hk3 with rfl | hk4
  · -- at the header's alignment the first start is the block's own
    have hown : a ≤ start := le_of_fitStart hk ha ⟨Nat.le_refl _, hstart, .inl (Nat.sub_self _)⟩
    omega
  · have hpow : 2 ^ 4 ≤ 2 ^ k := Nat.pow_le_pow_right (by decide) hk4
    omega

theorem fit_none (hk : k ≤ 63) (hk3 : 3 ≤ k) (hstart : HEADER_ALIGN ∣ start) (hend : start + bsize < 2 ^ 64)
    (h : fit start bsize size (2 ^ k) = none) {x : Nat} : ¬ Placement start bsize size (2 ^ k) x := by
  intro hx
  have hin := hx.inside
  rw [fit] at h
  split at h
  · next hnone =>
      have := fitStart_none hk hnone hx.fronted
      omega
  · next a ha =>
      have hle := le_of_fitStart hk ha hx.fronted
      split at h
      · split at h
        · omega
        · dsimp only at h
          split at h
          · next hback => exact no_later hk hk3 hstart ha hback.1 hback.2 hx
          · cases h
      · omega

/-- `fit` answers the least placement. -/
theorem fit_isLeast (hk : k ≤ 63) (hk3 : 3 ≤ k) (hstart : HEADER_ALIGN ∣ start) (hend : start + bsize < 2 ^ 64)
    {a front : Nat} :
    fit start bsize size (2 ^ k) = some (a, front) ↔
      IsLeast {x | Placement start bsize size (2 ^ k) x} a ∧ front = a - start := by
  have hsome : ∀ {a front : Nat}, fit start bsize size (2 ^ k) = some (a, front) →
      IsLeast {x | Placement start bsize size (2 ^ k) x} a ∧ front = a - start := by
    intro a front h
    obtain ⟨heq, hdvd, hfront, hin, hback⟩ := fit_spec hk h
    refine ⟨⟨⟨by omega, hdvd, hin, by omega, hback⟩, ?_⟩, by omega⟩
    intro x hx
    rw [fit] at h
    split at h
    · cases h
    · next b hb =>
        have hle := le_of_fitStart hk hb (Placement.fronted hx)
        split at h
        · split at h
          · cases h
          · dsimp only at h
            split at h
            · cases h
            · rwa [← (Prod.mk.inj (Option.some.inj h)).1]
        · cases h
  refine ⟨hsome, ?_⟩
  rintro ⟨hleast, rfl⟩
  cases h : fit start bsize size (2 ^ k) with
  | none => exact absurd hleast.1 (fit_none hk hk3 hstart hend h)
  | some r =>
      obtain ⟨b, front⟩ := r
      obtain ⟨hb, hfront⟩ := hsome h
      rw [hfront, hb.unique hleast]

theorem fit_eq_none (hk : k ≤ 63) (hk3 : 3 ≤ k) (hstart : HEADER_ALIGN ∣ start) (hend : start + bsize < 2 ^ 64) :
    fit start bsize size (2 ^ k) = none ↔ ∀ x, ¬ Placement start bsize size (2 ^ k) x := by
  refine ⟨fun h x => fit_none hk hk3 hstart hend h, fun h => ?_⟩
  cases hfit : fit start bsize size (2 ^ k) with
  | none => rfl
  | some r => exact absurd ((fit_isLeast hk hk3 hstart hend).mp hfit).1.1 (h r.1)

end

theorem firstFit_eq_none {size align : Nat} {free : List FreeBlock} :
    firstFit size align free = none ↔ ∀ b ∈ free, fit b.addr b.size size align = none := by
  induction free with
  | nil => exact ⟨fun _ b hb => absurd hb List.not_mem_nil, fun _ => rfl⟩
  | cons cur next ih =>
      rw [firstFit, List.forall_mem_cons, ← ih]
      cases fit cur.addr cur.size size align with
      | some r => simp
      | none =>
          cases firstFit size align next with
          | none => simp
          | some r => simp

/-- First fit takes the first block, in the order of the list, that fits. -/
theorem firstFit_first {size align a front : Nat} {block : FreeBlock} {free rest : List FreeBlock}
    (h : firstFit size align free = some (block, a, front, rest)) :
    ∃ before after, free = before ++ block :: after ∧ rest = before ++ after ∧
      fit block.addr block.size size align = some (a, front) ∧
      ∀ b ∈ before, fit b.addr b.size size align = none := by
  induction free generalizing rest with
  | nil => cases h
  | cons cur next ih =>
      rw [firstFit] at h
      split at h
      · next hfit =>
          simp only [Option.some.injEq, Prod.mk.injEq] at h
          obtain ⟨rfl, rfl, rfl, rfl⟩ := h
          exact ⟨[], next, rfl, rfl, hfit, fun b hb => absurd hb List.not_mem_nil⟩
      · next hnone =>
          split at h
          · next hnext =>
              simp only [Option.some.injEq, Prod.mk.injEq] at h
              obtain ⟨rfl, rfl, rfl, rfl⟩ := h
              obtain ⟨before, after, rfl, rfl, hfit, hbefore⟩ := ih hnext
              refine ⟨cur :: before, after, rfl, rfl, hfit, ?_⟩
              intro b hb
              rcases List.mem_cons.mp hb with rfl | hb
              · exact hnone
              · exact hbefore b hb
          · cases h

/-! ## The loop of `alloc` -/

namespace HeapState

/-- The loop over what the frame allocator grants, the `i`-th grow of the call first; `none`
while it has not returned. -/
def allocTurns (size align : Nat) (grants : Nat → Nat) : Nat → Nat → HeapState → Option (Option Nat × HeapState)
  | _, 0, _ => none
  | i, n + 1, s =>
      match s.tryFit size align with
      | some (ptr, s) => some (some ptr, s)
      | none =>
          match s.grow size (grants i) with
          | some s => allocTurns size align grants (i + 1) n s
          | none => some (none, s)

/-- The pages the window has left. -/
def pagesLeft (s : HeapState) : Nat := (s.windowEnd - s.windowNext) / PAGE

theorem pagesLeft_grow {s t : HeapState} {minBytes grant : Nat} (h : s.grow minBytes grant = some t) :
    t.pagesLeft < s.pagesLeft := by
  obtain ⟨n, hn, -, hroom, rfl⟩ := grow_spec h
  have hpage : PAGE = 4096 := rfl
  rw [hpage] at hroom
  show (s.windowEnd - (s.windowNext + n * PAGE)) / PAGE < (s.windowEnd - s.windowNext) / PAGE
  rw [hpage]
  omega

theorem allocTurns_returns (size align : Nat) (grants : Nat → Nat) {n i : Nat} {s : HeapState} (h : s.pagesLeft < n) :
    ∃ r t, allocTurns size align grants i n s = some (r, t) := by
  induction n generalizing i s with
  | zero => exact absurd h (Nat.not_lt_zero _)
  | succ n ih =>
      rw [allocTurns]
      cases hfit : s.tryFit size align with
      | some r => exact ⟨some r.1, r.2, rfl⟩
      | none =>
          cases hgrow : s.grow size (grants i) with
          | none => exact ⟨none, s, rfl⟩
          | some t =>
              have hless := pagesLeft_grow hgrow
              exact ih (by omega)

/-- The loop is the one over the list of what was granted. -/
theorem allocLoop_of_turns {size align : Nat} {grants : Nat → Nat} {n i : Nat} {s : HeapState}
    {r : Option Nat × HeapState} (h : allocTurns size align grants i n s = some r) :
    s.allocLoop size align ((List.range' i n).map grants) = r := by
  induction n generalizing i s with
  | zero => cases h
  | succ n ih =>
      rw [allocTurns] at h
      rw [List.range'_succ, List.map_cons, allocLoop]
      cases hfit : s.tryFit size align with
      | some q =>
          rw [hfit] at h
          exact Option.some.inj h
      | none =>
          rw [hfit] at h
          cases hgrow : s.grow size (grants i) with
          | none =>
              rw [hgrow] at h
              exact Option.some.inj h
          | some t =>
              rw [hgrow] at h
              exact ih h

/-- A loop that fails ends in a state in which no block fits and the window does not grow. -/
theorem failed_of_turns {size align : Nat} {grants : Nat → Nat} {n i : Nat} {s t : HeapState}
    (h : allocTurns size align grants i n s = some (none, t)) :
    t.tryFit size align = none ∧ ∃ j, t.grow size (grants j) = none := by
  induction n generalizing i s with
  | zero => cases h
  | succ n ih =>
      rw [allocTurns] at h
      cases hfit : s.tryFit size align with
      | some q =>
          rw [hfit] at h
          cases h
      | none =>
          rw [hfit] at h
          cases hgrow : s.grow size (grants i) with
          | none =>
              rw [hgrow] at h
              cases h
              exact ⟨hfit, i, hgrow⟩
          | some u =>
              rw [hgrow] at h
              exact ih h

end HeapState

/-! ## Along every run -/

/-- Free blocks lie in the donated memory, below the end of the address space. -/
theorem Inv.stop_lt {p : Place} {w : World} (h : Inv p w) {b : FreeBlock} (hb : b ∈ w.heap.head) :
    b.addr + b.size < 2 ^ 64 := by
  have hpos := (h.fine.headed b hb).pos
  have hlast : b.addr + b.size - 1 ∈ b := by
    refine mem_iff.mpr ⟨by omega, ?_⟩
    show b.addr + b.size - 1 < b.addr + b.size
    omega
  have hweight : 0 < weight (donated w.heap) (b.addr + b.size - 1) := by
    rw [← h.tiles, weight_append]
    exact Nat.lt_of_lt_of_le (weight_pos_iff.mpr ⟨b, hb, hlast⟩) (Nat.le_add_right _ _)
  obtain ⟨d, hd, hmem⟩ := weight_pos_iff.mp hweight
  have harena := p.arena_fits
  have hwindow := p.window_fits
  have hsize := h.arena
  obtain ⟨hlo, hhi⟩ := mem_iff.mp hmem
  simp only [stop] at hlo hhi harena hwindow
  rcases List.mem_cons.mp hd with rfl | hd
  · dsimp only at hlo hhi
    split at hhi <;> omega
  · obtain rfl := List.mem_singleton.mp hd
    dsimp only at hlo hhi
    cases henabled : w.heap.windowEnabled with
    | false =>
        have := h.window.off henabled
        omega
    | true =>
        have hnext := h.window.next henabled
        simp only [stop] at hnext
        omega

theorem tryFit_eq_none {s : HeapState} {size align : Nat} :
    s.tryFit size align = none ↔ ∀ b ∈ s.head, fit b.addr b.size size align = none := by
  rw [← firstFit_eq_none, HeapState.tryFit]
  cases firstFit size align s.head with
  | none => simp
  | some r => simp

theorem tryFit_first {s t : HeapState} {size align ptr : Nat} (h : s.tryFit size align = some (ptr, t)) :
    ∃ before b after front, s.head = before ++ b :: after ∧ fit b.addr b.size size align = some (ptr, front) ∧
      ∀ c ∈ before, fit c.addr c.size size align = none := by
  rw [HeapState.tryFit] at h
  split at h
  · cases h
  · next block a front rest hfirst =>
      obtain ⟨before, after, hhead, -, hfit, hbefore⟩ := firstFit_first hfirst
      dsimp only at h
      obtain ⟨rfl, -⟩ := Prod.mk.inj (Option.some.inj h)
      exact ⟨before, block, after, front, hhead, hfit, hbefore⟩

/-- `fit` answers the least placement of a block, so a pass over the free list of a reachable
heap takes the least placement of the first block that has one and fails only if none has; and
`alloc` returns for every layout, whatever it is granted. -/
theorem alloc_complete :
    (∀ start bsize size k, HEADER_ALIGN ∣ start → start + bsize < 2 ^ 64 → 3 ≤ k → k ≤ 63 →
      (∀ a front, fit start bsize size (2 ^ k) = some (a, front) ↔
        IsLeast {x | Placement start bsize size (2 ^ k) x} a ∧ front = a - start) ∧
      (fit start bsize size (2 ^ k) = none ↔ ∀ x, ¬ Placement start bsize size (2 ^ k) x)) ∧
    (∀ (p : Place) (ops : List Op) (layout : Layout), ∃ size k, required layout = some (size, 2 ^ k) ∧
      ((exec (step p) (boot p) ops).heap.tryFit size (2 ^ k) = none ↔
        ∀ b ∈ (exec (step p) (boot p) ops).heap.head, ∀ x, ¬ Placement b.addr b.size size (2 ^ k) x) ∧
      (∀ ptr t, (exec (step p) (boot p) ops).heap.tryFit size (2 ^ k) = some (ptr, t) →
        ∃ before b after, (exec (step p) (boot p) ops).heap.head = before ++ b :: after ∧
          IsLeast {x | Placement b.addr b.size size (2 ^ k) x} ptr ∧
          ∀ c ∈ before, ∀ x, ¬ Placement c.addr c.size size (2 ^ k) x) ∧
      ∀ grants : Nat → Nat, ∃ n r t,
        HeapState.allocTurns size (2 ^ k) grants 0 n (exec (step p) (boot p) ops).heap = some (r, t) ∧
        (exec (step p) (boot p) ops).heap.alloc layout ((List.range' 0 n).map grants) = (r, t) ∧
        (r = none → t.tryFit size (2 ^ k) = none ∧ ∃ j, t.grow size (grants j) = none)) := by
  refine ⟨fun start bsize size k hstart hend hk3 hk =>
    ⟨fun a front => fit_isLeast hk hk3 hstart hend, fit_eq_none hk hk3 hstart hend⟩, ?_⟩
  intro p ops layout
  have h : Inv p (exec (step p) (boot p) ops) := exec_inv (inv_step p) ops (inv_boot p)
  obtain ⟨⟨size, align⟩, hreq⟩ := Option.isSome_iff_exists.mp (required_isSome layout)
  obtain ⟨-, -, -, ⟨k, hk, hk3, rfl⟩, -⟩ := required_spec hreq
  have hnone : ∀ b ∈ (exec (step p) (boot p) ops).heap.head,
      (fit b.addr b.size size (2 ^ k) = none ↔ ∀ x, ¬ Placement b.addr b.size size (2 ^ k) x) :=
    fun b hb => fit_eq_none hk hk3 (h.fine.headed b hb).addr (h.stop_lt hb)
  refine ⟨size, k, hreq, ?_, ?_, ?_⟩
  · rw [tryFit_eq_none]
    exact forall₂_congr hnone
  · intro ptr t hfit
    obtain ⟨before, b, after, front, hhead, hb, hbefore⟩ := tryFit_first hfit
    have hmem : b ∈ (exec (step p) (boot p) ops).heap.head := by
      rw [hhead]
      exact List.mem_append_right _ List.mem_cons_self
    refine ⟨before, b, after, hhead, ((fit_isLeast hk hk3 (h.fine.headed b hmem).addr (h.stop_lt hmem)).mp hb).1, ?_⟩
    intro c hc
    have hcmem : c ∈ (exec (step p) (boot p) ops).heap.head := by
      rw [hhead]
      exact List.mem_append_left _ hc
    exact (hnone c hcmem).mp (hbefore c hc)
  · intro grants
    obtain ⟨r, t, hturns⟩ := HeapState.allocTurns_returns size (2 ^ k) grants (i := 0)
      (Nat.lt_succ_self (exec (step p) (boot p) ops).heap.pagesLeft)
    refine ⟨_, r, t, hturns, ?_, ?_⟩
    · rw [HeapState.alloc, hreq]
      exact HeapState.allocLoop_of_turns hturns
    · rintro rfl
      exact HeapState.failed_of_turns hturns

end Yuva.Heap
