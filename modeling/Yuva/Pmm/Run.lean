/-
# `Yuva.Pmm.Run` — frames in and out of hands

The allocator under its callers.  A frame is freed by the one who holds it; a call of
`free` on an address that is no managed frame may come from anyone and at any time.
Holders write what they like into the frames they hold, link words included, and the
stack is read back through the same memory.

A free by a non-holder of a managed frame, a double free, is no step: the module's doc
says that one in the middle of the stack goes undetected.
-/
import Yuva.Pmm.State
import Yuva.Lib.Run

namespace Yuva.Pmm

open Yuva.Machine Yuva.Run

structure World where
  st : PmmState
  mem : Mem
  live : List Nat

inductive Op where
  | alloc
  | free (pa : Nat)
  | write (addr val : Nat)

/-- The tests `free` makes on the address alone. -/
def Managed (s : PmmState) (pa : Nat) : Prop :=
  (pa ≠ 0 ∧ pa % FRAME = 0) ∧ s.frameInUsable pa = true ∧ isReservedFrame s.reserved pa = false

instance (s : PmmState) (pa : Nat) : Decidable (Managed s pa) := inferInstanceAs (Decidable (_ ∧ _))

/-- Some frame in hand contains the address. -/
def InHand (live : List Nat) (addr : Nat) : Prop := ∃ f ∈ live, f ≤ addr ∧ addr < f + FRAME

instance (live : List Nat) (addr : Nat) : Decidable (InHand live addr) :=
  inferInstanceAs (Decidable (∃ f ∈ live, f ≤ addr ∧ addr < f + FRAME))

def step (w : World) : Op → World
  | .alloc =>
      match w.st.alloc w.mem with
      | some (pa, st) => ⟨st, w.mem, pa :: w.live⟩
      | none => w
  | .free pa =>
      if pa ∈ w.live ∨ ¬ Managed w.st pa then
        match w.st.free w.mem pa with
        | (true, st, mem) => ⟨st, mem, w.live.erase pa⟩
        | (false, st, mem) => ⟨st, mem, w.live⟩
      else w
  | .write addr val => if InHand w.live addr then { w with mem := Function.update w.mem addr val } else w

/-- The allocator as `seed` leaves it, nothing handed out yet. -/
def boot (sink : RegionSink) (mem : Mem) : World :=
  ⟨((installed sink).seed mem).1, ((installed sink).seed mem).2, []⟩

/-- The linked stack and the frames in hand are the seeded frames, each of them once. -/
structure Inv (sink : RegionSink) (w : World) (stack : List Nat) : Prop where
  linked : Linked w.mem 0 w.st.head stack
  perm : (stack ++ w.live).Perm (seedFrames sink.usable sink.reserved)
  free : w.st.freeCount = stack.length
  total : w.st.totalFrames = (seedFrames sink.usable sink.reserved).length
  usable : w.st.usable = sink.usable
  reserved : w.st.reserved = sink.reserved

section
variable {sink : RegionSink} {w : World} {stack : List Nat}

theorem Inv.mem_seed (h : Inv sink w stack) {f : Nat} :
    f ∈ seedFrames sink.usable sink.reserved ↔ f ∈ stack ∨ f ∈ w.live := by
  rw [← h.perm.mem_iff, List.mem_append]

theorem Inv.nodup (h : Inv sink w stack) (hseed : (seedFrames sink.usable sink.reserved).Nodup) :
    (stack ++ w.live).Nodup := h.perm.nodup_iff.mpr hseed

theorem Inv.length (h : Inv sink w stack) : stack.length + w.live.length = w.st.totalFrames := by
  rw [h.total, ← h.perm.length_eq, List.length_append]

/-- What was seeded passes the tests of `free`. -/
theorem Inv.managed (h : Inv sink w stack) {f : Nat} (hf : f ∈ seedFrames sink.usable sink.reserved) :
    Managed w.st f := by
  obtain ⟨⟨hdvd, -⟩, hzero, htop⟩ := seedable_of_mem hf
  obtain ⟨⟨r, hr, hmem⟩, -, hres⟩ := mem_seedFrames.mp hf
  obtain ⟨-, ⟨hle, hlt⟩, -⟩ := mem_rangeFrames.mp hmem
  refine ⟨⟨hzero, Nat.mod_eq_zero_of_dvd hdvd⟩, ?_, h.reserved ▸ hres⟩
  rw [PmmState.frameInUsable, if_pos htop, List.any_eq_true]
  refine ⟨r, h.usable ▸ hr, decide_eq_true ⟨hle, ?_⟩⟩
  exact Nat.le_min.mpr ⟨hlt, Nat.le_sub_one_of_lt htop⟩

/-- A write into a frame in hand leaves every link of the stack as it is: frames are aligned. -/
theorem Inv.write (h : Inv sink w stack) (hseed : (seedFrames sink.usable sink.reserved).Nodup)
    {addr : Nat} (hand : InHand w.live addr) (val : Nat) :
    Inv sink { w with mem := Function.update w.mem addr val } stack := by
  obtain ⟨f, hf, hle, hlt⟩ := hand
  refine ⟨h.linked.frame fun g hg => Function.update_of_ne ?_ _ _, h.perm, h.free, h.total, h.usable, h.reserved⟩
  rintro rfl
  have hfdvd := (seedable_of_mem (h.mem_seed.mpr (.inr hf))).1.1
  have hgdvd := (seedable_of_mem (h.mem_seed.mpr (.inl hg))).1.1
  have hne : f ≠ g := fun heq =>
    (List.disjoint_of_nodup_append (h.nodup hseed)) hg (heq ▸ hf)
  rw [FRAME] at hfdvd hgdvd hlt
  omega

theorem Inv.alloc {pa : Nat} {st : PmmState} (h : Inv sink w stack) (halloc : w.st.alloc w.mem = some (pa, st)) :
    ∃ rest, stack = pa :: rest ∧ Inv sink ⟨st, w.mem, pa :: w.live⟩ rest := by
  rw [PmmState.alloc] at halloc
  split at halloc
  · cases halloc
  · next hhead =>
      rw [Option.some.injEq, Prod.mk.injEq] at halloc
      obtain ⟨rfl, rfl⟩ := halloc
      have hlinked := h.linked
      cases stack with
      | nil => exact absurd hlinked hhead
      | cons f rest =>
          obtain ⟨rfl, -, hrest⟩ := hlinked
          refine ⟨rest, rfl, hrest, List.perm_middle.trans h.perm, ?_, h.total, h.usable, h.reserved⟩
          have hfree := h.free
          rw [List.length_cons] at hfree
          dsimp only
          omega

/-- A holder's free is accepted. -/
theorem Inv.free_live (h : Inv sink w stack) (hseed : (seedFrames sink.usable sink.reserved).Nodup)
    {pa : Nat} (hpa : pa ∈ w.live) :
    w.st.free w.mem pa =
      (true, { w.st with head := pa, freeCount := w.st.freeCount + 1 }, Function.update w.mem pa w.st.head) := by
  obtain ⟨⟨hzero, halign⟩, husable, hres⟩ := h.managed (h.mem_seed.mpr (.inr hpa))
  have hcount : ¬ w.st.freeCount ≥ w.st.totalFrames := by
    have hlen := h.length
    have hpos := List.length_pos_of_mem hpa
    rw [h.free]
    omega
  have hhead : w.st.head ≠ pa := by
    intro heq
    have hlinked := h.linked
    cases stack with
    | nil => exact hzero (heq.symm.trans hlinked)
    | cons f rest =>
        refine (List.disjoint_of_nodup_append (h.nodup hseed)) (List.mem_cons_self) ?_
        rw [← hlinked.1, heq]
        exact hpa
  rw [PmmState.free, if_neg (fun hor => hor.elim hzero (fun hmod => hmod halign)), if_neg (by rw [husable]; decide),
    if_neg (by rw [hres]; decide), if_neg hcount, if_neg hhead]

theorem Inv.give_back (h : Inv sink w stack) (hseed : (seedFrames sink.usable sink.reserved).Nodup)
    {pa : Nat} (hpa : pa ∈ w.live) :
    Inv sink ⟨{ w.st with head := pa, freeCount := w.st.freeCount + 1 }, Function.update w.mem pa w.st.head,
      w.live.erase pa⟩ (pa :: stack) := by
  have hzero := (h.managed (h.mem_seed.mpr (.inr hpa))).1.1
  have hnew : pa ∉ stack := fun hmem => (List.disjoint_of_nodup_append (h.nodup hseed)) hmem hpa
  refine ⟨h.linked.push hzero hnew, ?_, congrArg (· + 1) h.free, h.total, h.usable, h.reserved⟩
  exact (List.perm_middle.symm.trans ((List.perm_cons_erase hpa).symm.append_left stack)).trans h.perm

end

/-- A refused `free` changes nothing. -/
theorem free_rejected {s : PmmState} {mem : Mem} {pa : Nat} (h : (s.free mem pa).1 = false) :
    s.free mem pa = (false, s, mem) := by
  revert h
  fun_cases PmmState.free s mem pa
  case case6 => intro h; cases h
  all_goals intro _; rfl

/-- What is no managed frame is refused. -/
theorem free_unmanaged {s : PmmState} {mem : Mem} {pa : Nat} (h : ¬ Managed s pa) : (s.free mem pa).1 = false := by
  fun_cases PmmState.free s mem pa
  case case6 haddr husable hres _ _ =>
      refine absurd ⟨⟨fun h0 => haddr (.inl h0), ?_⟩, ?_, Bool.eq_false_iff.mpr hres⟩ h
      · exact not_not.mp fun hmod => haddr (.inr hmod)
      · exact Bool.not_eq_false _ ▸ husable
  all_goals rfl

theorem inv_step {sink : RegionSink} (hseed : (seedFrames sink.usable sink.reserved).Nodup) (w : World) (op : Op)
    (h : ∃ stack, Inv sink w stack) : ∃ stack, Inv sink (step w op) stack := by
  obtain ⟨stack, h⟩ := h
  cases op with
  | alloc =>
      rw [step]
      split
      · next halloc =>
          obtain ⟨rest, -, hrest⟩ := h.alloc halloc
          exact ⟨rest, hrest⟩
      · exact ⟨stack, h⟩
  | free pa =>
      rw [step]
      split
      · next hcall =>
          by_cases hpa : pa ∈ w.live
          · rw [h.free_live hseed hpa]
            exact ⟨pa :: stack, h.give_back hseed hpa⟩
          · rw [free_rejected (free_unmanaged (hcall.resolve_left hpa))]
            exact ⟨stack, h⟩
      · exact ⟨stack, h⟩
  | write addr val =>
      rw [step]
      split
      · next hand => exact ⟨stack, h.write hseed hand val⟩
      · exact ⟨stack, h⟩

theorem inv_boot {sink : RegionSink} (mem : Mem) (hseed : (seedFrames sink.usable sink.reserved).Nodup) :
    Inv sink (boot sink mem) (seedFrames sink.usable sink.reserved).reverse := by
  obtain ⟨t, ht, -, -, htotal⟩ := seed_head_eq sink mem
  obtain ⟨husable, hreserved, htotal'⟩ :=
    PmmState.foldl_link_fields (seedFrames sink.usable sink.reserved) (installed sink) mem
  refine ⟨seed_linked mem hseed, ?_, ?_, htotal, ?_, ?_⟩
  · rw [boot, List.append_nil]
    exact List.reverse_perm _
  · rw [List.length_reverse, boot, PmmState.seed_eq]
    exact htotal'.trans (Nat.zero_add _)
  · rw [boot, PmmState.seed_eq]
    exact husable
  · rw [boot, PmmState.seed_eq]
    exact hreserved

/-- Over every run from a duplicate-free seeding: the memory threads a stack disjoint from the frames
in hand, the counts agree with it, `alloc` fails exactly when everything is in hand and never hands
out what is, a holder's free is accepted, and a refused free changes nothing. -/
theorem frames_in_one_hand (sink : RegionSink) (mem : Mem)
    (hseed : (seedFrames sink.usable sink.reserved).Nodup) (ops : List Op) :
    ∃ stack, Linked (exec step (boot sink mem) ops).mem 0 (exec step (boot sink mem) ops).st.head stack ∧
      (stack ++ (exec step (boot sink mem) ops).live).Nodup ∧
      (∀ pa st, (exec step (boot sink mem) ops).st.alloc (exec step (boot sink mem) ops).mem = some (pa, st) →
        pa ∈ seedFrames sink.usable sink.reserved ∧ pa ∉ (exec step (boot sink mem) ops).live) ∧
      (exec step (boot sink mem) ops).st.freeCount = stack.length ∧
      (exec step (boot sink mem) ops).st.freeCount =
        (exec step (boot sink mem) ops).st.totalFrames - (exec step (boot sink mem) ops).live.length ∧
      ((exec step (boot sink mem) ops).st.alloc (exec step (boot sink mem) ops).mem = none ↔
        ∀ f ∈ seedFrames sink.usable sink.reserved, f ∈ (exec step (boot sink mem) ops).live) ∧
      (∀ pa ∈ (exec step (boot sink mem) ops).live,
        ((exec step (boot sink mem) ops).st.free (exec step (boot sink mem) ops).mem pa).1 = true) ∧
      (∀ pa, ¬ Managed (exec step (boot sink mem) ops).st pa →
        ((exec step (boot sink mem) ops).st.free (exec step (boot sink mem) ops).mem pa).1 = false) ∧
      ∀ pa, ((exec step (boot sink mem) ops).st.free (exec step (boot sink mem) ops).mem pa).1 = false →
        ((exec step (boot sink mem) ops).st.free (exec step (boot sink mem) ops).mem pa).2 =
          ((exec step (boot sink mem) ops).st, (exec step (boot sink mem) ops).mem) := by
  obtain ⟨stack, h⟩ : ∃ stack, Inv sink (exec step (boot sink mem) ops) stack :=
    exec_inv (inv_step hseed) ops ⟨_, inv_boot mem hseed⟩
  generalize exec step (boot sink mem) ops = w at h ⊢
  have hnodup := h.nodup hseed
  have hlen := h.length
  refine ⟨stack, h.linked, hnodup, ?_, h.free, ?_, ?_, ?_, fun pa => free_unmanaged, ?_⟩
  · intro pa st halloc
    obtain ⟨rest, rfl, -⟩ := h.alloc halloc
    exact ⟨h.mem_seed.mpr (.inl List.mem_cons_self),
      (List.disjoint_of_nodup_append hnodup) List.mem_cons_self⟩
  · rw [h.free]
    omega
  · have hnone : w.st.alloc w.mem = none ↔ stack = [] := by
      rw [h.linked.eq_nil_iff, PmmState.alloc]
      split
      · next hzero => exact ⟨fun _ => hzero, fun _ => rfl⟩
      · next hne => exact ⟨fun hsome => (by cases hsome), fun hzero => absurd hzero hne⟩
    rw [hnone]
    constructor
    · rintro rfl f hf
      exact (h.mem_seed.mp hf).resolve_left List.not_mem_nil
    · intro hall
      refine List.eq_nil_iff_forall_not_mem.mpr fun f hf => ?_
      exact (List.disjoint_of_nodup_append hnodup) hf (hall f (h.mem_seed.mpr (.inl hf)))
  · intro pa hpa
    rw [h.free_live hseed hpa]
  · intro pa hrej
    rw [free_rejected hrej]

/-- One range of three frames, the middle one reserved. -/
def threeFrames : RegionSink := (RegionSink.new.pushUsable 0x100000 0x3000).pushReserved 0x101800 0x10

/-- A run over two frames: one is taken, its link word overwritten, and the other is what is left. -/
theorem frames_in_one_hand_two :
    (seedFrames threeFrames.usable threeFrames.reserved).Nodup ∧
      ∀ pa st, (exec step (boot threeFrames fun _ => 0) [.alloc, .write 0x102000 7]).st.alloc
          (exec step (boot threeFrames fun _ => 0) [.alloc, .write 0x102000 7]).mem = some (pa, st) →
        pa ∈ seedFrames threeFrames.usable threeFrames.reserved ∧
          pa ∉ (exec step (boot threeFrames fun _ => 0) [.alloc, .write 0x102000 7]).live := by
  have hseed : (seedFrames threeFrames.usable threeFrames.reserved).Nodup := by decide
  obtain ⟨-, -, -, halloc, -⟩ := frames_in_one_hand threeFrames (fun _ => 0) hseed [.alloc, .write 0x102000 7]
  exact ⟨hseed, halloc⟩

end Yuva.Pmm
