/-
# `Yuva.Pmm.State` — the physical frame allocator and its seeding

`tb-hal/src/pmm.rs`: a stack of free 4 KiB frames threaded through the frames
themselves.  A boot reader fills a `RegionSink` with usable and reserved spans; `seed`
walks the usable ones frame by frame and pushes every frame that meets no reservation.
The link word of a free frame is memory like any other, so the state is the allocator's
fields and a word memory, indexed by the addresses of the words.

`Range` ends saturate as in the source.  A seeded frame lies below the saturation point,
so for it the saturated and the true end agree (`mem_rangeFrames`).

**Proved here.**  Seeding does what the module's doc says of it, each frame pushed once,
exactly when no frame lies inside two of the recorded ranges (`seed_exact_iff`); two
overlapping ranges thread the stack through one frame twice.
-/
import Yuva.Lib.Linked
import Yuva.Lib.Machine
import Mathlib.Data.List.Dedup
import Mathlib.Data.List.Nodup
import Mathlib.Data.List.Perm.Subperm

namespace Yuva.Pmm

open Yuva.Machine

def FRAME : Nat := 4096
def MAX_RANGES : Nat := 16
def MAX_RESV : Nat := 64

structure PhysRange where
  base : BitVec 64
  len : BitVec 64
  deriving DecidableEq, Repr

namespace PhysRange

/-- One past the last address, stopping at the top of the address space. -/
def «end» (r : PhysRange) : Nat := satU 64 (r.base.toNat + r.len.toNat)

/-- The frame at `f` lies wholly inside the range. -/
def Holds (r : PhysRange) (f : Nat) : Prop := r.base.toNat ≤ f ∧ f + FRAME ≤ r.base.toNat + r.len.toNat

/-- The frame at `f` and the range share a byte. -/
def Touches (r : PhysRange) (f : Nat) : Prop :=
  ∃ x, (f ≤ x ∧ x < f + FRAME) ∧ r.base.toNat ≤ x ∧ x < r.base.toNat + r.len.toNat

instance (r : PhysRange) (f : Nat) : Decidable (r.Holds f) := inferInstanceAs (Decidable (_ ∧ _))

theorem touches_iff {r : PhysRange} (hlen : r.len ≠ 0) (f : Nat) :
    r.Touches f ↔ f < r.base.toNat + r.len.toNat ∧ r.base.toNat < f + FRAME := by
  have hpos : 0 < r.len.toNat := Nat.pos_of_ne_zero fun h => hlen (BitVec.eq_of_toNat_eq h)
  constructor
  · rintro ⟨x, ⟨hlo, hhi⟩, hlo', hhi'⟩
    exact ⟨by omega, by omega⟩
  · rintro ⟨hlt, hgt⟩
    rw [FRAME] at hgt
    refine ⟨max f r.base.toNat, ⟨by omega, ?_⟩, by omega, by omega⟩
    rw [FRAME]
    omega

end PhysRange

/-- What the boot readers record: at most a table of non-empty ranges of either kind. -/
structure RegionSink where
  usable : List PhysRange
  reserved : List PhysRange
  overflow : Bool
  usable_ne : ∀ r ∈ usable, r.len ≠ 0
  reserved_ne : ∀ r ∈ reserved, r.len ≠ 0
  usable_le : usable.length ≤ MAX_RANGES
  reserved_le : reserved.length ≤ MAX_RESV

theorem forall_snoc_ne {rs : List PhysRange} {base len : BitVec 64} (h : ∀ r ∈ rs, r.len ≠ 0) (hlen : len ≠ 0) :
    ∀ r ∈ rs ++ [⟨base, len⟩], r.len ≠ 0 := by
  intro r hr
  rcases List.mem_append.mp hr with hr | hr
  · exact h r hr
  · rw [List.mem_singleton.mp hr]
    exact hlen

theorem length_snoc_le {rs : List PhysRange} {r : PhysRange} {n : Nat} (h : rs.length < n) :
    (rs ++ [r]).length ≤ n := by
  rw [List.length_append, List.length_singleton]
  exact h

namespace RegionSink

def new : RegionSink := ⟨[], [], false, List.forall_mem_nil _, List.forall_mem_nil _, Nat.zero_le _, Nat.zero_le _⟩

/-- Empty spans are ignored, and a span that finds the table full is dropped. -/
def pushUsable (s : RegionSink) (base len : BitVec 64) : RegionSink :=
  if hlen : len = 0 then s
  else if hroom : s.usable.length < MAX_RANGES then
    { s with usable := s.usable ++ [⟨base, len⟩], usable_ne := forall_snoc_ne s.usable_ne hlen,
             usable_le := length_snoc_le hroom }
  else s

/-- Empty spans are ignored, and a span that finds the table full raises `overflow`. -/
def pushReserved (s : RegionSink) (base len : BitVec 64) : RegionSink :=
  if hlen : len = 0 then s
  else if hroom : s.reserved.length < MAX_RESV then
    { s with reserved := s.reserved ++ [⟨base, len⟩], reserved_ne := forall_snoc_ne s.reserved_ne hlen,
             reserved_le := length_snoc_le hroom }
  else { s with overflow := true }

end RegionSink

def alignUp (x a : Nat) : Nat := clearLow 64 a (satU 64 (x + (a - 1)))

def alignDown (x a : Nat) : Nat := clearLow 64 a x

abbrev Mem := Nat → Nat

structure PmmState where
  head : Nat
  usable : List PhysRange
  reserved : List PhysRange
  totalFrames : Nat
  freeCount : Nat
  initialized : Bool
  deriving DecidableEq, Repr

/-- The frame `[f, f + FRAME)` intersects a reservation. -/
def isReservedFrame (reserved : List PhysRange) (f : Nat) : Bool :=
  reserved.any fun r => f < r.end ∧ r.base.toNat < satU 64 (f + FRAME)

/-- The values `f` takes in the inner loop of `seed`. -/
def frameStarts (f stop : Nat) : List Nat := (List.range ((stop - f + (FRAME - 1)) / FRAME)).map fun i => f + i * FRAME

/-- The frames of a range, from its first whole frame to its last. -/
def rangeFrames (r : PhysRange) : List Nat := frameStarts (alignUp r.base.toNat FRAME) (alignDown r.end FRAME)

namespace PmmState

def new : PmmState := ⟨0, [], [], 0, 0, false⟩

/-- The body of the inner loop: link the frame in front of the stack, unless it is reserved. -/
def pushFrame : PmmState × Mem → Nat → PmmState × Mem
  | (s, mem), f =>
      if f ≠ 0 ∧ isReservedFrame s.reserved f = false then
        ({ s with head := f, totalFrames := s.totalFrames + 1 }, Function.update mem f s.head)
      else (s, mem)

def seed (s : PmmState) (mem : Mem) : PmmState × Mem :=
  let s := { s with head := 0, totalFrames := 0 }
  let (s, mem) := s.usable.foldl (fun acc r => (rangeFrames r).foldl pushFrame acc) (s, mem)
  ({ s with freeCount := s.totalFrames }, mem)

/-- `init`, over what the boot reader recorded; `image` is the kernel image's span. -/
def init (s : PmmState) (mem : Mem) (sink : RegionSink) (image : PhysRange) : PmmState × Mem :=
  if s.initialized then (s, mem)
  else
    let sink := sink.pushReserved image.base image.len
    if sink.overflow then ({ s with initialized := true }, mem)
    else
      let (s, mem) := seed { s with usable := sink.usable, reserved := sink.reserved } mem
      ({ s with initialized := true }, mem)

/-- The whole frame `[pa, pa + FRAME)` fits inside one usable range. -/
def frameInUsable (s : PmmState) (pa : Nat) : Bool :=
  if pa + FRAME < 2 ^ 64 then s.usable.any fun r => pa ≥ r.base.toNat ∧ pa + FRAME ≤ r.end else false

def alloc (s : PmmState) (mem : Mem) : Option (Nat × PmmState) :=
  if s.head = 0 then none else some (s.head, { s with head := mem s.head, freeCount := s.freeCount - 1 })

def free (s : PmmState) (mem : Mem) (pa : Nat) : Bool × PmmState × Mem :=
  if pa = 0 ∨ pa % FRAME ≠ 0 then (false, s, mem)
  else if s.frameInUsable pa = false then (false, s, mem)
  else if isReservedFrame s.reserved pa = true then (false, s, mem)
  else if s.freeCount ≥ s.totalFrames then (false, s, mem)
  else if s.head = pa then (false, s, mem)
  else (true, { s with head := pa, freeCount := s.freeCount + 1 }, Function.update mem pa s.head)

end PmmState

/-! ## The frames of a range -/

theorem alignDown_frame {x : Nat} (hx : x < 2 ^ 64) : alignDown x FRAME = x / 4096 * 4096 :=
  clearLow_pow (k := 12) hx (by decide)

theorem alignUp_frame (x : Nat) : alignUp x FRAME = satU 64 (x + 4095) / 4096 * 4096 := by
  refine clearLow_pow (k := 12) ?_ (by decide)
  rw [satU]
  omega

theorem mem_frameStarts {lo stop f : Nat} (hlo : FRAME ∣ lo) (hstop : FRAME ∣ stop) :
    f ∈ frameStarts lo stop ↔ FRAME ∣ f ∧ lo ≤ f ∧ f < stop := by
  rw [FRAME] at hlo hstop ⊢
  rw [frameStarts, List.mem_map, FRAME]
  constructor
  · rintro ⟨i, hi, rfl⟩
    rw [List.mem_range] at hi
    exact ⟨by omega, by omega, by omega⟩
  · rintro ⟨hf, hle, hlt⟩
    exact ⟨(f - lo) / 4096, List.mem_range.mpr (by omega), by omega⟩

theorem nodup_frameStarts (lo stop : Nat) : (frameStarts lo stop).Nodup := by
  refine List.Nodup.map ?_ List.nodup_range
  intro i j hij
  simp only [FRAME] at hij
  omega

theorem whole_frames {b n f : Nat} (hf : 4096 ∣ f) :
    satU 64 (b + 4095) / 4096 * 4096 ≤ f ∧ f < satU 64 (b + n) / 4096 * 4096 ↔
      (b ≤ f ∧ f + 4096 ≤ b + n) ∧ f + 4096 < 2 ^ 64 := by
  have h64 : 2 ^ 64 = 18446744073709551616 := by decide
  rw [satU, satU, h64]
  omega

/-- The walk over a range visits its whole frames; none of them reaches the top of the
address space, where the end of the range saturates. -/
theorem mem_rangeFrames {r : PhysRange} {f : Nat} :
    f ∈ rangeFrames r ↔ FRAME ∣ f ∧ r.Holds f ∧ f + FRAME < 2 ^ 64 := by
  have hend : r.end < 2 ^ 64 := by
    rw [PhysRange.end, satU]
    omega
  have hdown := alignDown_frame hend
  have hup := alignUp_frame r.base.toNat
  rw [rangeFrames, mem_frameStarts (hup ▸ Nat.dvd_mul_left _ _) (hdown ▸ Nat.dvd_mul_left _ _), hdown, hup]
  exact and_congr_right fun hf => whole_frames hf

theorem nodup_rangeFrames (r : PhysRange) : (rangeFrames r).Nodup := nodup_frameStarts _ _

theorem isReservedFrame_iff {reserved : List PhysRange} (hne : ∀ r ∈ reserved, r.len ≠ 0) {f : Nat}
    (hf : f + FRAME < 2 ^ 64) : isReservedFrame reserved f = true ↔ ∃ r ∈ reserved, r.Touches f := by
  rw [isReservedFrame, List.any_eq_true]
  refine exists_congr fun r => and_congr_right fun hr => ?_
  rw [PhysRange.touches_iff (hne r hr), decide_eq_true_iff, PhysRange.end, satU_of_lt hf, satU]
  simp only [FRAME] at hf ⊢
  constructor
  · rintro ⟨hlt, hgt⟩
    exact ⟨by omega, hgt⟩
  · rintro ⟨hlt, hgt⟩
    exact ⟨by omega, hgt⟩

/-! ## What `seed` pushes -/

/-- The frames `seed` links in, in the order it does. -/
def seedFrames (usable reserved : List PhysRange) : List Nat :=
  (usable.flatMap rangeFrames).filter fun f => f ≠ 0 ∧ isReservedFrame reserved f = false

theorem mem_seedFrames {usable reserved : List PhysRange} {f : Nat} :
    f ∈ seedFrames usable reserved ↔
      (∃ r ∈ usable, f ∈ rangeFrames r) ∧ f ≠ 0 ∧ isReservedFrame reserved f = false := by
  rw [seedFrames, List.mem_filter, List.mem_flatMap, decide_eq_true_iff]

theorem count_flatMap_rangeFrames (usable : List PhysRange) (f : Nat) :
    (usable.flatMap rangeFrames).count f = usable.countP fun r => f ∈ rangeFrames r := by
  induction usable with
  | nil => rfl
  | cons r rs ih =>
      rw [List.flatMap_cons, List.count_append, ih, List.countP_cons, Nat.add_comm]
      congr 1
      by_cases hmem : f ∈ rangeFrames r
      · rw [if_pos (decide_eq_true hmem), List.count_eq_one_of_mem (nodup_rangeFrames r) hmem]
      · rw [if_neg (by simpa using hmem), List.count_eq_zero_of_not_mem hmem]

/-- A frame is linked in once for every range that holds it. -/
theorem count_seedFrames {usable reserved : List PhysRange} {f : Nat} (hzero : f ≠ 0)
    (hres : isReservedFrame reserved f = false) :
    (seedFrames usable reserved).count f = usable.countP fun r => f ∈ rangeFrames r := by
  rw [seedFrames, List.count_filter, count_flatMap_rangeFrames]
  exact decide_eq_true ⟨hzero, hres⟩

namespace PmmState

/-- Link one frame in front of the stack. -/
def link : PmmState × Mem → Nat → PmmState × Mem
  | (s, mem), f => ({ s with head := f, totalFrames := s.totalFrames + 1 }, Function.update mem f s.head)

theorem foldl_pushFrame (fs : List Nat) (s : PmmState) (mem : Mem) :
    fs.foldl pushFrame (s, mem) =
      (fs.filter fun f => f ≠ 0 ∧ isReservedFrame s.reserved f = false).foldl link (s, mem) := by
  induction fs generalizing s mem with
  | nil => rfl
  | cons f fs ih =>
      rw [List.foldl_cons, pushFrame]
      split
      · next hpush =>
          rw [List.filter_cons_of_pos (by simpa using hpush), List.foldl_cons]
          exact ih _ _
      · next hskip =>
          rw [List.filter_cons_of_neg (by simpa using hskip)]
          exact ih _ _

theorem seed_eq (s : PmmState) (mem : Mem) :
    s.seed mem =
      (let (t, mem) := (seedFrames s.usable s.reserved).foldl link ({ s with head := 0, totalFrames := 0 }, mem)
       ({ t with freeCount := t.totalFrames }, mem)) := by
  rw [seed, ← List.foldl_flatMap, foldl_pushFrame]
  rfl

/-- What linking a list of frames leaves behind. -/
theorem foldl_link_fields (fs : List Nat) (s : PmmState) (mem : Mem) :
    (fs.foldl link (s, mem)).1.usable = s.usable ∧ (fs.foldl link (s, mem)).1.reserved = s.reserved ∧
      (fs.foldl link (s, mem)).1.totalFrames = s.totalFrames + fs.length := by
  induction fs generalizing s mem with
  | nil => exact ⟨rfl, rfl, rfl⟩
  | cons f fs ih =>
      obtain ⟨husable, hreserved, htotal⟩ :=
        ih { s with head := f, totalFrames := s.totalFrames + 1 } (Function.update mem f s.head)
      refine ⟨husable, hreserved, htotal.trans ?_⟩
      rw [List.length_cons]
      dsimp only
      omega

theorem foldl_link_linked (fs : List Nat) {xs : List Nat} {s : PmmState} {mem : Mem} (h : Linked mem 0 s.head xs)
    (hnodup : fs.Nodup) (hzero : 0 ∉ fs) (hnew : ∀ f ∈ fs, f ∉ xs) :
    Linked (fs.foldl link (s, mem)).2 0 (fs.foldl link (s, mem)).1.head (fs.reverse ++ xs) := by
  induction fs generalizing xs s mem with
  | nil => exact h
  | cons f fs ih =>
      obtain ⟨hf, hnodup⟩ := List.nodup_cons.mp hnodup
      rw [List.reverse_cons, List.append_assoc]
      refine ih (h.push (fun h0 => hzero (h0 ▸ List.mem_cons_self)) (hnew f List.mem_cons_self)) hnodup
        (fun hmem => hzero (List.mem_cons_of_mem f hmem)) ?_
      intro g hg hmem
      rcases List.mem_cons.mp hmem with rfl | hmem
      · exact hf hg
      · exact hnew g (List.mem_cons_of_mem f hg) hmem

/-- Links written by a seeding lead to frames it pushed, or to the bottom. -/
theorem foldl_link_closed (fs xs : List Nat) (s : PmmState) (mem : Mem) (hhead : s.head = 0 ∨ s.head ∈ xs)
    (hclosed : ∀ x ∈ xs, mem x = 0 ∨ mem x ∈ xs) :
    ((fs.foldl link (s, mem)).1.head = 0 ∨ (fs.foldl link (s, mem)).1.head ∈ fs.reverse ++ xs) ∧
      ∀ x ∈ fs.reverse ++ xs, (fs.foldl link (s, mem)).2 x = 0 ∨ (fs.foldl link (s, mem)).2 x ∈ fs.reverse ++ xs := by
  induction fs generalizing xs s mem with
  | nil => exact ⟨hhead, hclosed⟩
  | cons f fs ih =>
      rw [List.reverse_cons, List.append_assoc]
      refine ih _ _ _ (.inr List.mem_cons_self) ?_
      intro x hx
      by_cases hxf : x = f
      · rw [hxf, Function.update_self]
        exact hhead.imp_right (List.mem_cons_of_mem f)
      · rw [Function.update_of_ne hxf]
        have hxs := (List.mem_cons.mp hx).resolve_left hxf
        exact (hclosed x hxs).imp_right (List.mem_cons_of_mem f)

end PmmState

/-! ## Seeding, against its purpose -/

/-- A frame of the address space inside a usable range and clear of every reservation. -/
def Seedable (sink : RegionSink) (f : Nat) : Prop :=
  FRAME ∣ f ∧ f < 2 ^ 64 ∧ (∃ r ∈ sink.usable, r.Holds f) ∧ ∀ r ∈ sink.reserved, ¬ r.Touches f

/-- The allocator over the recorded tables, before it is seeded. -/
def installed (sink : RegionSink) : PmmState :=
  { PmmState.new with usable := sink.usable, reserved := sink.reserved }

/-- The stack in memory holds the seedable frames, each once, and `total_frames` counts them. -/
def SeedExact (sink : RegionSink) (s : PmmState) (mem : Mem) : Prop :=
  ∃ stack, Linked mem 0 s.head stack ∧ stack.Nodup ∧ (∀ f, f ∈ stack ↔ Seedable sink f) ∧
    s.totalFrames = stack.length

/-- No seedable frame is the null frame, or the last one, or lies inside two recorded ranges. -/
def Separate (sink : RegionSink) : Prop :=
  ∀ f, Seedable sink f → f ≠ 0 ∧ f + FRAME ≠ 2 ^ 64 ∧ (sink.usable.countP fun r => r.Holds f) = 1

theorem seedable_of_mem {sink : RegionSink} {f : Nat} (h : f ∈ seedFrames sink.usable sink.reserved) :
    Seedable sink f ∧ f ≠ 0 ∧ f + FRAME < 2 ^ 64 := by
  obtain ⟨⟨r, hr, hmem⟩, hzero, hres⟩ := mem_seedFrames.mp h
  obtain ⟨hdvd, hholds, htop⟩ := mem_rangeFrames.mp hmem
  refine ⟨⟨hdvd, by omega, ⟨r, hr, hholds⟩, ?_⟩, hzero, htop⟩
  intro s hs htouch
  rw [(isReservedFrame_iff sink.reserved_ne htop).mpr ⟨s, hs, htouch⟩] at hres
  cases hres

theorem mem_seedFrames_of_seedable {sink : RegionSink} {f : Nat} (h : Seedable sink f) (hzero : f ≠ 0)
    (htop : f + FRAME ≠ 2 ^ 64) : f ∈ seedFrames sink.usable sink.reserved := by
  obtain ⟨hdvd, hlt, ⟨r, hr, hholds⟩, hclear⟩ := h
  have hbelow : f + FRAME < 2 ^ 64 := by
    rw [FRAME] at hdvd htop ⊢
    omega
  refine mem_seedFrames.mpr ⟨⟨r, hr, mem_rangeFrames.mpr ⟨hdvd, hholds, hbelow⟩⟩, hzero, ?_⟩
  rw [Bool.eq_false_iff, Ne, isReservedFrame_iff sink.reserved_ne hbelow]
  rintro ⟨s, hs, htouch⟩
  exact hclear s hs htouch

/-- A frame is pushed as often as recorded ranges hold it. -/
theorem count_eq_holds {sink : RegionSink} {f : Nat} (h : f ∈ seedFrames sink.usable sink.reserved) :
    (seedFrames sink.usable sink.reserved).count f = sink.usable.countP fun r => r.Holds f := by
  obtain ⟨⟨hdvd, -⟩, hzero, htop⟩ := seedable_of_mem h
  rw [count_seedFrames hzero (mem_seedFrames.mp h).2.2]
  refine List.countP_congr fun r _ => ?_
  rw [decide_eq_true_iff, decide_eq_true_iff, mem_rangeFrames]
  exact ⟨fun hmem => hmem.2.1, fun hholds => ⟨hdvd, hholds, htop⟩⟩

theorem seed_head_eq (sink : RegionSink) (mem : Mem) :
    ∃ t, (seedFrames sink.usable sink.reserved).foldl PmmState.link (installed sink, mem) = t ∧
      ((installed sink).seed mem).1.head = t.1.head ∧ ((installed sink).seed mem).2 = t.2 ∧
      ((installed sink).seed mem).1.totalFrames = (seedFrames sink.usable sink.reserved).length := by
  refine ⟨_, rfl, ?_⟩
  rw [PmmState.seed_eq]
  obtain ⟨-, -, htotal⟩ := PmmState.foldl_link_fields (seedFrames sink.usable sink.reserved) (installed sink) mem
  exact ⟨rfl, rfl, htotal.trans (Nat.zero_add _)⟩

/-- An exact seeding pushed no frame twice: what the walk finds was pushed, so the pushes are
the stack up to order. -/
theorem separate_of_exact {sink : RegionSink} {mem : Mem}
    (h : SeedExact sink ((installed sink).seed mem).1 ((installed sink).seed mem).2) : Separate sink := by
  obtain ⟨t, ht, hhead, hmem, htotal⟩ := seed_head_eq sink mem
  rw [SeedExact, hhead, hmem, htotal] at h
  obtain ⟨stack, hlinked, hnodup, hstack, hlen⟩ := h
  have hclosed := PmmState.foldl_link_closed (seedFrames sink.usable sink.reserved) [] (installed sink) mem
    (.inl rfl) (List.forall_mem_nil _)
  rw [ht, List.append_nil] at hclosed
  have hsub : stack ⊆ seedFrames sink.usable sink.reserved := fun g hg =>
    List.mem_reverse.mp (hlinked.subset hclosed.2 hclosed.1 g hg)
  have hperm := (List.subperm_of_subset hnodup hsub).perm_of_length_le (Nat.le_of_eq hlen)
  intro f hf
  have hpushed := hsub ((hstack f).mpr hf)
  obtain ⟨-, hzero, htop⟩ := seedable_of_mem hpushed
  refine ⟨hzero, Nat.ne_of_lt htop, ?_⟩
  rw [← count_eq_holds hpushed]
  exact List.count_eq_one_of_mem (hperm.nodup hnodup) hpushed

theorem nodup_seedFrames {sink : RegionSink} (hsep : Separate sink) :
    (seedFrames sink.usable sink.reserved).Nodup := by
  refine List.nodup_iff_count_le_one.mpr fun f => ?_
  by_cases hf : f ∈ seedFrames sink.usable sink.reserved
  · rw [count_eq_holds hf]
    exact Nat.le_of_eq (hsep f (seedable_of_mem hf).1).2.2
  · rw [List.count_eq_zero_of_not_mem hf]
    exact Nat.zero_le 1

/-- Frames pushed once each are threaded in the order of their pushes. -/
theorem seed_linked {sink : RegionSink} (mem : Mem) (hnodup : (seedFrames sink.usable sink.reserved).Nodup) :
    Linked ((installed sink).seed mem).2 0 ((installed sink).seed mem).1.head
      (seedFrames sink.usable sink.reserved).reverse := by
  obtain ⟨t, ht, hhead, hmem, -⟩ := seed_head_eq sink mem
  have hzero : 0 ∉ seedFrames sink.usable sink.reserved := fun h => (seedable_of_mem h).2.1 rfl
  have hempty : Linked mem 0 (installed sink).head [] := rfl
  have hlinked := PmmState.foldl_link_linked _ hempty hnodup hzero fun _ _ => List.not_mem_nil
  rw [ht, List.append_nil] at hlinked
  rw [hhead, hmem]
  exact hlinked

/-- Seeding is exact precisely when no seedable frame lies inside two recorded ranges (and none is
the null frame, the stack's end mark, or the last of the address space). -/
theorem seed_exact_iff (sink : RegionSink) (mem : Mem) :
    SeedExact sink ((installed sink).seed mem).1 ((installed sink).seed mem).2 ↔ Separate sink := by
  constructor
  · exact separate_of_exact
  · intro hsep
    have hnodup := nodup_seedFrames hsep
    obtain ⟨t, ht, hhead, hmem, htotal⟩ := seed_head_eq sink mem
    refine ⟨_, seed_linked mem hnodup, List.nodup_reverse.mpr hnodup, ?_, ?_⟩
    · intro f
      rw [List.mem_reverse]
      exact ⟨fun h => (seedable_of_mem h).1, fun h =>
        mem_seedFrames_of_seedable h (hsep f h).1 (hsep f h).2.1⟩
    · rw [htotal, List.length_reverse]

/-- Two entries of a memory map that share the frame at `0x101000`. -/
def overlapping : RegionSink := (RegionSink.new.pushUsable 0x100000 0x2000).pushUsable 0x101000 0x2000

/-- The shared frame is pushed twice: its link word then leads to itself, and four frames are
counted where there are three. -/
theorem overlapping_not_exact :
    ¬ SeedExact overlapping ((installed overlapping).seed fun _ => 0).1 ((installed overlapping).seed fun _ => 0).2 ∧
      ((installed overlapping).seed fun _ => 0).2 0x101000 = 0x101000 ∧
      ((installed overlapping).seed fun _ => 0).1.totalFrames = 4 := by
  refine ⟨?_, by decide, by decide⟩
  intro h
  have hone := (separate_of_exact h 0x101000 ⟨by decide, by decide, ⟨⟨0x100000, 0x2000⟩, by decide, by decide⟩,
    List.forall_mem_nil _⟩).2.2
  revert hone
  decide

end Yuva.Pmm
