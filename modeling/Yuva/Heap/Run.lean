/-
# `Yuva.Heap.Run` — the heap under its clients

Clients allocate, and give back what they hold with the layout they took it with: the
contract of `GlobalAlloc`.  The ledger `live` is the list of what is held.  Every
allocation may make the heap grow, and every grow may be granted any number of pages
up to its request, none included; the window may be enabled at any point of the run.

The invariant is one equation of weights (`Inv.tiles`): byte by byte, the free blocks and
the live regions together hold what the arena and the mapped part of the window hold.
Every operation moves weight between the two lists or, in `grow`, adds the same region
to both sides; order and disjointness are read off it.
-/
import Yuva.Heap.State
import Yuva.Lib.Run

namespace Yuva.Heap

open Yuva.Machine Yuva.Region Yuva.Run

/-- The free list's own well-formedness. -/
structure Fine (free : List FreeBlock) : Prop where
  ascending : Ascending free
  headed : ∀ b ∈ free, Headed b

theorem Fine.insertFree {node : FreeBlock} {free : List FreeBlock} (h : Fine free) (hnode : Headed node)
    (hone : ∀ x, node.unit x + weight free x ≤ 1) : Fine (insertFree node free) where
  ascending := ascending_insertFree h.ascending (fun b hb => (h.headed b hb).pos) hnode.pos
    (disjoint_of_weight hone)
  headed := headed_insertFree hnode h.headed

namespace HeapState

theorem weight_giveBack (s : HeapState) (addr size x : Nat) :
    weight (s.giveBack addr size).head x = unit ⟨addr, size⟩ x + weight s.head x := by
  rw [giveBack]
  split
  · exact weight_insertFree _ _ _
  · next hzero => rw [not_not.mp hzero, unit_empty, Nat.zero_add]

theorem fine_giveBack {s : HeapState} {addr size : Nat} (h : Fine s.head)
    (hnode : size ≠ 0 → Headed ⟨addr, size⟩) (hone : ∀ x, unit ⟨addr, size⟩ x + weight s.head x ≤ 1) :
    Fine (s.giveBack addr size).head := by
  rw [giveBack]
  split
  · next hpos => exact h.insertFree (hnode hpos) hone
  · exact h

/-- The fields a free-list operation leaves alone. -/
structure SameStore (s t : HeapState) : Prop where
  arenaStart : t.arenaStart = s.arenaStart
  arenaSize : t.arenaSize = s.arenaSize
  windowEnabled : t.windowEnabled = s.windowEnabled
  windowBase : t.windowBase = s.windowBase
  windowNext : t.windowNext = s.windowNext
  windowEnd : t.windowEnd = s.windowEnd

theorem giveBack_same (s : HeapState) (addr size : Nat) :
    SameStore s (s.giveBack addr size) ∧ (s.giveBack addr size).used = s.used := by
  rw [giveBack]
  split <;> exact ⟨⟨rfl, rfl, rfl, rfl, rfl, rfl⟩, rfl⟩

/-- One pass of first fit: the payload leaves the free list, and nothing else does. -/
theorem tryFit_spec {s t : HeapState} {size k ptr : Nat} (hk : k ≤ 63) (hk3 : 3 ≤ k)
    (hsize : HEADER_ALIGN ∣ size) (hfine : Fine s.head) (hone : ∀ x, weight s.head x ≤ 1)
    (h : s.tryFit size (2 ^ k) = some (ptr, t)) :
    Fine t.head ∧ (∀ x, weight s.head x = unit ⟨ptr, size⟩ x + weight t.head x) ∧ 2 ^ k ∣ ptr ∧
      SameStore s t ∧ t.used = s.used + size := by
  rw [tryFit] at h
  split at h
  · cases h
  · next block a front rest hfirst =>
      obtain ⟨hfit, hperm, hsub⟩ := firstFit_spec hfirst
      obtain ⟨rfl, hdvd, hfront, hin, hback⟩ := fit_spec hk hfit
      have hblock := hfine.headed block (hperm.mem_iff.mpr List.mem_cons_self)
      have hrest : Fine rest := ⟨hfine.ascending.sublist hsub, fun b hb => hfine.headed b (hsub.subset hb)⟩
      -- the block is its front gap, the payload and its back gap
      have hcut : ∀ x, unit block x = unit ⟨block.addr, front⟩ x + unit ⟨block.addr + front, size⟩ x +
          unit ⟨block.addr + front + size, block.addr + block.size - (block.addr + front + size)⟩ x := by
        intro x
        have hlen : front + size + (block.addr + block.size - (block.addr + front + size)) = block.size := by
          omega
        calc unit block x = unit ⟨block.addr, front + size +
              (block.addr + block.size - (block.addr + front + size))⟩ x := by rw [hlen]
          _ = _ := by rw [unit_cut, unit_cut, Nat.add_assoc block.addr]
      have hweight : ∀ x, weight s.head x = unit block x + weight rest x := fun x => weight_perm hperm x
      have h8 : HEADER_ALIGN ∣ block.addr + front := Nat.dvd_trans (Nat.pow_dvd_pow 2 hk3) hdvd
      have h8front : HEADER_ALIGN ∣ front := (Nat.dvd_add_right hblock.addr).mp h8
      have h8end : HEADER_ALIGN ∣ block.addr + front + size := Nat.dvd_add h8 hsize
      simp only [Option.some.injEq, Prod.mk.injEq] at h
      obtain ⟨rfl, rfl⟩ := h
      obtain ⟨hsame₁, hused₁⟩ := giveBack_same { s with head := rest } block.addr front
      obtain ⟨hsame₂, hused₂⟩ := giveBack_same (giveBack { s with head := rest } block.addr front)
        (block.addr + front + size) (block.addr + block.size - (block.addr + front + size))
      have hfine₁ : Fine (giveBack { s with head := rest } block.addr front).head := by
        refine fine_giveBack hrest (fun hpos => ⟨hblock.addr, h8front, hfront.resolve_left hpos⟩) fun x => ?_
        have := hone x
        have := hweight x
        have := hcut x
        dsimp only
        omega
      refine ⟨?_, ?_, hdvd, ?_, ?_⟩
      · refine fine_giveBack hfine₁
          (fun hpos => ⟨h8end, Nat.dvd_sub (Nat.dvd_add hblock.addr hblock.size) h8end,
            hback.resolve_left hpos⟩) fun x => ?_
        rw [weight_giveBack]
        have := hone x
        have := hweight x
        have := hcut x
        dsimp only
        omega
      · intro x
        dsimp only
        rw [weight_giveBack, weight_giveBack, hweight, hcut]
        dsimp only
        omega
      · exact ⟨hsame₂.arenaStart.trans hsame₁.arenaStart, hsame₂.arenaSize.trans hsame₁.arenaSize,
          hsame₂.windowEnabled.trans hsame₁.windowEnabled, hsame₂.windowBase.trans hsame₁.windowBase,
          hsame₂.windowNext.trans hsame₁.windowNext, hsame₂.windowEnd.trans hsame₁.windowEnd⟩
      · exact congrArg (· + size) (hused₂.trans hused₁)

/-- A grow that makes progress maps whole pages inside the window and donates them. -/
theorem grow_spec {s t : HeapState} {minBytes grant : Nat} (h : s.grow minBytes grant = some t) :
    ∃ n, 0 < n ∧ s.windowEnabled = true ∧ s.windowNext + n * PAGE ≤ s.windowEnd ∧ t = s.donatePages n := by
  rw [grow] at h
  split at h
  · cases h
  · next henabled =>
      split at h
      · cases h
      · next hroom =>
          dsimp only at h
          split at h
          · cases h
          · split at h
            · cases h
            · next hmapped =>
                rw [Option.some.injEq] at h
                refine ⟨min grant (s.requestPages minBytes), Nat.pos_of_ne_zero hmapped,
                  Bool.not_eq_false _ ▸ henabled, ?_, h.symm⟩
                have hreq : s.requestPages minBytes ≤ (s.windowEnd - s.windowNext) / PAGE := by
                  rw [requestPages]
                  generalize (if (minBytes + PAGE - 1) / PAGE > GROW_CHUNK_PAGES then
                    (minBytes + PAGE - 1) / PAGE else GROW_CHUNK_PAGES) = want
                  split <;> omega
                have hpages := Nat.mul_le_mul_right PAGE (Nat.le_trans (Nat.min_le_right grant _) hreq)
                have hdiv := Nat.div_mul_le_self (s.windowEnd - s.windowNext) PAGE
                simp only [PAGE] at hroom hpages hdiv ⊢
                omega

end HeapState

/-! ## The clients -/

/-- Where the two stores lie: the static arena and the architecture's heap window. -/
structure Place where
  arena : Region
  window : Region
  arena_pos : 0 < arena.addr
  arena_aligned : HEADER_ALIGN ∣ arena.addr
  arena_fits : arena.stop < 2 ^ 64
  window_pos : 0 < window.addr
  window_pages : PAGE ∣ window.addr
  window_fits : window.stop < 2 ^ 64
  apart : arena.Disjoint window

/-- The heap, and what its clients hold. -/
structure World where
  heap : HeapState
  live : List (Nat × Layout)

inductive Op where
  | alloc (layout : Layout) (grants : List Nat)
  | dealloc (ptr : Nat) (layout : Layout)
  | windowInit

/-- A client frees only what it holds, under the layout it was given it with. -/
def step (p : Place) (w : World) : Op → World
  | .alloc layout grants =>
      match w.heap.alloc layout grants with
      | (some ptr, heap) => ⟨heap, (ptr, layout) :: w.live⟩
      | (none, heap) => ⟨heap, w.live⟩
  | .dealloc ptr layout =>
      if (ptr, layout) ∈ w.live then ⟨w.heap.dealloc ptr layout, w.live.erase (ptr, layout)⟩ else w
  | .windowInit => ⟨w.heap.windowInit p.window.addr p.window.size, w.live⟩

def boot (p : Place) : World := ⟨HeapState.new.init p.arena.addr p.arena.size, []⟩

/-- The size a layout is served with. -/
def normSize (layout : Layout) : Nat := ((required layout).map Prod.fst).getD 0

/-- The region of a live allocation. -/
def regionOf (a : Nat × Layout) : Region := ⟨a.1, normSize a.2⟩

/-- The memory the heap has been given: the arena, and the mapped part of the window. -/
def donated (s : HeapState) : List Region :=
  [⟨s.arenaStart, if s.arenaSize ≥ MIN_BLOCK then s.arenaSize else 0⟩,
    ⟨s.windowBase, s.windowNext - s.windowBase⟩]

/-- How far the window has come. -/
structure WindowOk (p : Place) (s : HeapState) : Prop where
  off : s.windowEnabled = false → s.windowNext = s.windowBase
  base : s.windowEnabled = true → s.windowBase = p.window.addr
  stop : s.windowEnabled = true → s.windowEnd = p.window.stop
  next : s.windowEnabled = true → p.window.addr ≤ s.windowNext ∧ s.windowNext ≤ p.window.stop
  pages : s.windowEnabled = true → PAGE ∣ s.windowNext

structure Inv (p : Place) (w : World) : Prop where
  fine : Fine w.heap.head
  tiles : ∀ x, weight (w.heap.head ++ w.live.map regionOf) x = weight (donated w.heap) x
  arena : w.heap.arenaStart = p.arena.addr ∧ w.heap.arenaSize ≤ p.arena.size
  window : WindowOk p w.heap
  aligned : ∀ a ∈ w.live, a.2.align ∣ a.1 ∧ HEADER_ALIGN ∣ a.1
  used : w.heap.used = (w.live.map fun a => normSize a.2).sum

/-! ## What every operation keeps -/

theorem normSize_eq {layout : Layout} {size align : Nat} (h : required layout = some (size, align)) :
    normSize layout = size := by
  rw [normSize, h]
  rfl

/-- The two stores share no byte, so no byte is donated twice. -/
theorem donated_le_one {p : Place} {s : HeapState}
    (harena : s.arenaStart = p.arena.addr ∧ s.arenaSize ≤ p.arena.size) (hwindow : WindowOk p s) (x : Nat) :
    weight (donated s) x ≤ 1 := by
  obtain ⟨hstart, hsize⟩ := harena
  have hfirst : unit ⟨s.arenaStart, if s.arenaSize ≥ MIN_BLOCK then s.arenaSize else 0⟩ x ≤ p.arena.unit x := by
    refine unit_le (Nat.le_of_eq hstart.symm) ?_ x
    simp only [stop, hstart]
    split <;> omega
  have hsecond : unit ⟨s.windowBase, s.windowNext - s.windowBase⟩ x ≤ p.window.unit x := by
    cases henabled : s.windowEnabled with
    | false =>
        rw [hwindow.off henabled, Nat.sub_self, unit_empty]
        exact Nat.zero_le _
    | true =>
        have hbase := hwindow.base henabled
        obtain ⟨hlo, hhi⟩ := hwindow.next henabled
        refine unit_le (Nat.le_of_eq hbase.symm) ?_ x
        simp only [stop] at hhi ⊢
        omega
  have hapart := p.apart.unit_le_one x
  simp only [donated, weight_cons, weight_nil]
  omega

namespace Inv

variable {p : Place} {w : World}

theorem one (h : Inv p w) (x : Nat) : weight w.heap.head x + weight (w.live.map regionOf) x ≤ 1 := by
  rw [← weight_append, h.tiles x]
  exact donated_le_one h.arena h.window x

/-- No client holds the null pointer. -/
theorem live_ne_zero (h : Inv p w) {a : Nat × Layout} (ha : a ∈ w.live) : a.1 ≠ 0 := by
  intro hzero
  obtain ⟨⟨size, align⟩, hreq⟩ := Option.isSome_iff_exists.mp (required_isSome a.2)
  have hpos : 0 < normSize a.2 := normSize_eq hreq ▸ Nat.lt_of_lt_of_le (by decide) (required_spec hreq).1
  have hmem : (0 : Nat) ∈ regionOf a := ⟨Nat.le_of_eq hzero, Nat.lt_of_lt_of_le hpos (Nat.le_add_left _ _)⟩
  have hweight : 0 < weight (donated w.heap) 0 := by
    rw [← h.tiles 0, weight_append]
    exact Nat.lt_of_lt_of_le (weight_pos_iff.mpr ⟨regionOf a, List.mem_map_of_mem ha, hmem⟩)
      (Nat.le_add_left _ _)
  obtain ⟨d, hd, hzd⟩ := weight_pos_iff.mp hweight
  have hstart := h.arena.1
  have harena := p.arena_pos
  have hwindow := p.window_pos
  obtain ⟨hlo, hhi⟩ := mem_iff.mp hzd
  rcases List.mem_cons.mp hd with rfl | hd
  · dsimp only at hlo
    omega
  · obtain rfl := List.mem_singleton.mp hd
    simp only [stop] at hlo hhi
    cases henabled : w.heap.windowEnabled with
    | false =>
        have := h.window.off henabled
        omega
    | true =>
        have := h.window.base henabled
        omega

theorem grow (h : Inv p w) {minBytes grant : Nat} {t : HeapState}
    (hgrow : w.heap.grow minBytes grant = some t) : Inv p ⟨t, w.live⟩ := by
  obtain ⟨n, hn, henabled, hend, rfl⟩ := HeapState.grow_spec hgrow
  have hbase := h.window.base henabled
  have hstop := h.window.stop henabled
  have hpages := h.window.pages henabled
  obtain ⟨hlo, hhi⟩ := h.window.next henabled
  have hwindow : WindowOk p (w.heap.donatePages n) :=
    ⟨fun hoff => absurd (henabled.symm.trans hoff) (by decide), fun _ => hbase, fun _ => hstop,
      fun _ => ⟨Nat.le_add_right_of_le hlo, hstop ▸ hend⟩, fun _ => Nat.dvd_add hpages (Nat.dvd_mul_left _ _)⟩
  -- the new pages extend the mapped part of the window
  have hdonated : ∀ x, weight (donated (w.heap.donatePages n)) x =
      unit ⟨w.heap.windowNext, n * PAGE⟩ x + weight (donated w.heap) x := by
    intro x
    have hlen : w.heap.windowNext + n * PAGE - w.heap.windowBase =
        w.heap.windowNext - w.heap.windowBase + n * PAGE := by omega
    have hat : w.heap.windowBase + (w.heap.windowNext - w.heap.windowBase) = w.heap.windowNext := by omega
    change unit ⟨w.heap.arenaStart, if w.heap.arenaSize ≥ MIN_BLOCK then w.heap.arenaSize else 0⟩ x +
        (unit ⟨w.heap.windowBase, w.heap.windowNext + n * PAGE - w.heap.windowBase⟩ x + 0) =
      _ + (unit ⟨w.heap.arenaStart, _⟩ x + (unit ⟨w.heap.windowBase, w.heap.windowNext - w.heap.windowBase⟩ x + 0))
    rw [hlen, unit_cut, hat]
    omega
  have htiles := h.tiles
  refine ⟨h.fine.insertFree ⟨?_, ?_, ?_⟩ fun x => ?_, fun x => ?_, h.arena, hwindow, h.aligned, h.used⟩
  · exact Nat.dvd_trans (by decide) hpages
  · exact Nat.dvd_mul_left_of_dvd (by decide) n
  · exact Nat.le_trans (show MIN_BLOCK ≤ 1 * PAGE by decide) (Nat.mul_le_mul_right PAGE hn)
  · have hle := donated_le_one (s := w.heap.donatePages n) h.arena hwindow x
    have htile := htiles x
    rw [hdonated] at hle
    rw [weight_append] at htile
    omega
  · have htile := htiles x
    change weight (insertFree ⟨w.heap.windowNext, n * PAGE⟩ w.heap.head ++ _) x =
      weight (donated (w.heap.donatePages n)) x
    rw [hdonated, ← htile, weight_append, weight_append, weight_insertFree, Nat.add_assoc]

/-- One first fit, entered in the ledger. -/
theorem take (h : Inv p w) {layout : Layout} {size align ptr : Nat} {t : HeapState}
    (hreq : required layout = some (size, align)) (hfit : w.heap.tryFit size align = some (ptr, t)) :
    Inv p ⟨t, (ptr, layout) :: w.live⟩ := by
  obtain ⟨hmin, -, hdvd, ⟨k, hk, hk3, rfl⟩, halign⟩ := required_spec hreq
  have hone := h.one
  obtain ⟨hfine, hweight, hptr, hsame, hused⟩ :=
    HeapState.tryFit_spec hk hk3 hdvd h.fine (fun x => by have := hone x; omega) hfit
  have hregion : regionOf (ptr, layout) = ⟨ptr, size⟩ := congrArg (Region.mk ptr) (normSize_eq hreq)
  refine ⟨hfine, fun x => ?_, ?_, ?_, ?_, ?_⟩
  · have htile := h.tiles x
    rw [weight_append, hweight x] at htile
    have hsameDonated : donated t = donated w.heap := by
      simp only [donated, hsame.arenaStart, hsame.arenaSize, hsame.windowBase, hsame.windowNext]
    dsimp only
    rw [hsameDonated, weight_append, List.map_cons, weight_cons, hregion]
    omega
  · dsimp only
    rw [hsame.arenaStart, hsame.arenaSize]
    exact h.arena
  · obtain ⟨hoff, hbase, hstop, hnext, hpages⟩ := h.window
    constructor <;> dsimp only <;>
      simp only [hsame.windowEnabled, hsame.windowBase, hsame.windowNext, hsame.windowEnd] <;> assumption
  · intro a ha
    rcases List.mem_cons.mp ha with rfl | ha
    · exact ⟨Nat.dvd_trans halign hptr, Nat.dvd_trans (Nat.pow_dvd_pow 2 hk3) hptr⟩
    · exact h.aligned a ha
  · dsimp only
    rw [hused, h.used, List.map_cons, List.sum_cons, normSize_eq hreq, Nat.add_comm]

/-- The loop of `alloc`: grows, then one fit, or a failure that keeps what the grows mapped. -/
theorem allocLoop {layout : Layout} {size align : Nat} (hreq : required layout = some (size, align))
    (live : List (Nat × Layout)) : ∀ (grants : List Nat) {s t : HeapState} {r : Option Nat},
    Inv p ⟨s, live⟩ → s.allocLoop size align grants = (r, t) →
      Inv p ⟨t, (r.map fun ptr => (ptr, layout)).toList ++ live⟩ := by
  intro grants
  induction grants with
  | nil =>
      intro s t r h hloop
      rw [HeapState.allocLoop] at hloop
      split at hloop
      · next hfit =>
          obtain ⟨rfl, rfl⟩ := Prod.mk.inj hloop
          exact h.take hreq hfit
      · obtain ⟨rfl, rfl⟩ := Prod.mk.inj hloop
        exact h
  | cons grant grants ih =>
      intro s t r h hloop
      rw [HeapState.allocLoop] at hloop
      split at hloop
      · next hfit =>
          obtain ⟨rfl, rfl⟩ := Prod.mk.inj hloop
          exact h.take hreq hfit
      · split at hloop
        · next hgrow => exact ih (h.grow hgrow) hloop
        · obtain ⟨rfl, rfl⟩ := Prod.mk.inj hloop
          exact h

theorem dealloc (h : Inv p w) {ptr : Nat} {layout : Layout} (hmem : (ptr, layout) ∈ w.live) :
    Inv p ⟨w.heap.dealloc ptr layout, w.live.erase (ptr, layout)⟩ := by
  obtain ⟨⟨size, align⟩, hreq⟩ := Option.isSome_iff_exists.mp (required_isSome layout)
  obtain ⟨hmin, -, hdvd, -, -⟩ := required_spec hreq
  have hperm := List.perm_cons_erase hmem
  have hregion : regionOf (ptr, layout) = ⟨ptr, size⟩ := congrArg (Region.mk ptr) (normSize_eq hreq)
  have hlive : ∀ x, weight (w.live.map regionOf) x =
      unit ⟨ptr, size⟩ x + weight ((w.live.erase (ptr, layout)).map regionOf) x := by
    intro x
    rw [weight_perm (hperm.map regionOf) x, List.map_cons, weight_cons, hregion]
  have hsum : w.heap.used = size + ((w.live.erase (ptr, layout)).map fun a => normSize a.2).sum := by
    rw [h.used, (hperm.map fun a => normSize a.2).sum_nat, List.map_cons, List.sum_cons, normSize_eq hreq]
  have heap : w.heap.dealloc ptr layout =
      { w.heap with head := insertFree ⟨ptr, size⟩ w.heap.head, used := w.heap.used - size } := by
    rw [HeapState.dealloc, if_neg (h.live_ne_zero hmem), hreq]
    rfl
  rw [heap]
  refine ⟨h.fine.insertFree ⟨(h.aligned _ hmem).2, hdvd, hmin⟩ fun x => ?_, fun x => ?_, h.arena,
    ⟨h.window.off, h.window.base, h.window.stop, h.window.next, h.window.pages⟩,
    fun a ha => h.aligned a (List.mem_of_mem_erase ha), ?_⟩
  · have := h.one x
    have := hlive x
    omega
  · have htile := h.tiles x
    have := hlive x
    change weight (insertFree ⟨ptr, size⟩ w.heap.head ++ (w.live.erase (ptr, layout)).map regionOf) x =
      weight (donated w.heap) x
    rw [weight_append, weight_insertFree]
    rw [weight_append] at htile
    omega
  · change w.heap.used - size = ((w.live.erase (ptr, layout)).map fun a => normSize a.2).sum
    omega

theorem windowInit (h : Inv p w) : Inv p ⟨w.heap.windowInit p.window.addr p.window.size, w.live⟩ := by
  rw [HeapState.windowInit]
  split
  · exact h
  · next henabled =>
      have hfits := p.window_fits
      refine ⟨h.fine, fun x => ?_, h.arena, ⟨?_, ?_, ?_, ?_, ?_⟩, h.aligned, h.used⟩
      · have htile := h.tiles x
        have hoff := h.window.off (Bool.eq_false_iff.mpr henabled)
        dsimp only
        rw [htile]
        simp only [donated, weight_cons, weight_nil, hoff, Nat.sub_self, unit_empty]
      · intro hon
        cases hon
      · intro _
        rfl
      · intro _
        exact satU_of_lt hfits
      · intro _
        exact ⟨Nat.le_refl _, Nat.le_add_right _ _⟩
      · intro _
        exact p.window_pages

end Inv

theorem inv_boot (p : Place) : Inv p (boot p) := by
  have hfits := p.arena_fits
  simp only [stop] at hfits
  have haligned : alignUpChecked p.arena.addr HEADER_ALIGN = some p.arena.addr := by
    refine alignUpChecked_of_dvd (k := 3) (by decide) p.arena_aligned ?_
    have := p.arena_aligned
    simp only [HEADER_ALIGN] at this
    omega
  have husable : clearLow 64 HEADER_ALIGN (p.arena.size - 0) = p.arena.size / HEADER_ALIGN * HEADER_ALIGN := by
    rw [HEADER_ALIGN_eq, Nat.sub_zero, clearLow_pow (by omega) (by decide)]
  have hsize : p.arena.size / HEADER_ALIGN * HEADER_ALIGN ≤ p.arena.size := Nat.div_mul_le_self _ _
  have hoff : WindowOk p ⟨[], 0, 0, false, 0, 0, false, 0, 0, 0, 0⟩ :=
    ⟨fun _ => rfl, fun h => (by cases h), fun h => (by cases h), fun h => (by cases h), fun h => (by cases h)⟩
  rw [boot, HeapState.init, if_neg (show ¬ HeapState.new.initialized = true by decide), haligned]
  dsimp only
  rw [Nat.sub_self, husable]
  generalize hsz : p.arena.size / HEADER_ALIGN * HEADER_ALIGN = usable at hsize
  have hdvd : HEADER_ALIGN ∣ usable := hsz ▸ Nat.dvd_mul_left _ _
  split
  · next hroom =>
      refine ⟨⟨List.pairwise_singleton _ _, ?_⟩, ?_, ⟨rfl, hsize⟩, ⟨hoff.1, hoff.2, hoff.3, hoff.4, hoff.5⟩,
        fun a ha => (by cases ha), rfl⟩
      · intro b hb
        rw [List.mem_singleton.mp hb]
        exact ⟨p.arena_aligned, hdvd, hroom⟩
      · intro x
        change unit ⟨p.arena.addr, usable⟩ x + 0 =
          unit ⟨p.arena.addr, if usable ≥ MIN_BLOCK then usable else 0⟩ x + (unit ⟨0, 0⟩ x + 0)
        rw [if_pos hroom, unit_empty]
  · next hroom =>
      refine ⟨⟨.nil, fun b hb => (by cases hb)⟩, ?_, ⟨rfl, hsize⟩, ⟨hoff.1, hoff.2, hoff.3, hoff.4, hoff.5⟩,
        fun a ha => (by cases ha), rfl⟩
      intro x
      change 0 = unit ⟨p.arena.addr, if usable ≥ MIN_BLOCK then usable else 0⟩ x + (unit ⟨0, 0⟩ x + 0)
      rw [if_neg hroom, unit_empty, unit_empty]

theorem inv_step (p : Place) (w : World) (op : Op) (h : Inv p w) : Inv p (step p w op) := by
  cases op with
  | alloc layout grants =>
      obtain ⟨⟨size, align⟩, hreq⟩ := Option.isSome_iff_exists.mp (required_isSome layout)
      have hloop : w.heap.alloc layout grants = w.heap.allocLoop size align grants := by
        rw [HeapState.alloc, hreq]
      rw [step, hloop]
      split
      · next hres => exact Inv.allocLoop hreq w.live grants h hres
      · next hres => exact Inv.allocLoop hreq w.live grants h hres
  | dealloc ptr layout =>
      rw [step]
      split
      · next hmem => exact h.dealloc hmem
      · exact h
  | windowInit => exact h.windowInit

/-- In every state the clients can bring the heap to: the free list ascends with a gap between any
two blocks, its blocks are headed, free and live regions partition the donated memory, what is
live is aligned and disjoint, and `used` is the sum of the live sizes. -/
theorem heap_tiles_donated_memory (p : Place) (ops : List Op) :
    Ascending (exec (step p) (boot p) ops).heap.head ∧
      (∀ b ∈ (exec (step p) (boot p) ops).heap.head, Headed b) ∧
      Partition ((exec (step p) (boot p) ops).heap.head ++ (exec (step p) (boot p) ops).live.map regionOf)
        (donated (exec (step p) (boot p) ops).heap) ∧
      (∀ a ∈ (exec (step p) (boot p) ops).live, a.2.align ∣ a.1) ∧
      ((exec (step p) (boot p) ops).live.map regionOf).Pairwise Region.Disjoint ∧
      (exec (step p) (boot p) ops).heap.used =
        ((exec (step p) (boot p) ops).live.map fun a => normSize a.2).sum := by
  have h : Inv p (exec (step p) (boot p) ops) := exec_inv (inv_step p) ops (inv_boot p)
  have hpart := partition_of_weight h.tiles (donated_le_one h.arena h.window)
  exact ⟨h.fine.ascending, h.fine.headed, hpart, fun a ha => (h.aligned a ha).1,
    (List.pairwise_append.mp hpart.disjoint).2.1, h.used⟩

end Yuva.Heap
