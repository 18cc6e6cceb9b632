/-
# `Yuva.Caps.Lineage` — no run amplifies authority

The run of `Yuva.Caps.World`, instrumented: beside the tables it records, for
each slot, the lineage of the capability last placed there, and the list of
mints (`alloc` and `attach` are the two calls that put an object into a table
from outside).  A lineage node stores the object and the rights *read off the
slot after the real call*, and the node of the slot the presented handle
resolved to; nothing in the record is recomputed, and erasing it gives the
plain run back (`exec_world`).

`Attenuates` says that each node of a lineage is below its parent in the rights
order and about the same object.  `Faithful` is the invariant: every occupied
slot's lineage is about the object and the rights the slot holds, attenuates,
and is rooted in a recorded mint.
-/
import Yuva.Caps.World

namespace Yuva.Caps

open Yuva.Run CapTable

variable {ι O : Type*} [DecidableEq ι]

/-- Where a capability came from. -/
inductive Lineage (O : Type*) where
  | mint (o : O) (r : Rights)
  | derived (o : O) (r : Rights) (parent : Lineage O)

namespace Lineage

def object : Lineage O → O
  | .mint o _ => o
  | .derived o _ _ => o

def rights : Lineage O → Rights
  | .mint _ r => r
  | .derived _ r _ => r

/-- The mint a lineage goes back to. -/
def root : Lineage O → O × Rights
  | .mint o r => (o, r)
  | .derived _ _ p => p.root

/-- Every derivation step is about its parent's object and within its rights. -/
def Attenuates : Lineage O → Prop
  | .mint _ _ => True
  | .derived o r p => o = p.object ∧ r ≤ p.rights ∧ p.Attenuates

theorem Attenuates.root_object : ∀ {l : Lineage O}, l.Attenuates → l.root.1 = l.object
  | .mint _ _, _ => rfl
  | .derived _ _ _, h => by
      rw [root, object, h.1]
      exact h.2.2.root_object

theorem Attenuates.rights_le_root : ∀ {l : Lineage O}, l.Attenuates → l.rights ≤ l.root.2
  | .mint _ r, _ => Rights.le_refl r
  | .derived _ _ _, h => Rights.le_trans h.2.1 h.2.2.rights_le_root

end Lineage

/-- A world with its record. -/
structure Traced (ι O : Type*) where
  world : World ι O
  lineage : ι → Nat → Option (Lineage O)
  mints : List (O × Rights)

namespace Traced

def new (cap : ι → Nat) : Traced ι O := ⟨World.new cap, fun _ _ => none, []⟩

/-- Record `l` at slot `i` of table `t`. -/
def record (lin : ι → Nat → Option (Lineage O)) (t : ι) (i : Nat) (l : Option (Lineage O)) :
    ι → Nat → Option (Lineage O) :=
  fun u j => if u = t ∧ j = i then l else lin u j

/-- The record after a mint of `(o, r)` into table `t`. -/
def minted (g : Traced ι O) (op : Op ι O) (t : ι) (o : O) (r : Rights) : Traced ι O :=
  match (g.world t).placed with
  | none => { g with world := g.world.step op }
  | some i =>
      ⟨g.world.step op, record g.lineage t i (some (.mint o r)), (o, r) :: g.mints⟩

/-- The record after a call that derives from handle `h` of table `src` a
capability placed in table `dst`: object and rights as the new slot holds them. -/
def derived (g : Traced ι O) (op : Op ι O) (src : ι) (h : Handle) (dst : ι) : Traced ι O :=
  match (g.world src).live h, (g.world dst).placed with
  | .ok p, some i =>
      { g with
        world := g.world.step op
        lineage := record g.lineage dst i do
          let s ← (g.world.step op dst).slots[i]?
          let o ← s.object
          let parent ← g.lineage src p
          some (.derived o s.rights parent) }
  | _, _ => { g with world := g.world.step op }

/-- One instrumented call. -/
def step (g : Traced ι O) (op : Op ι O) : Traced ι O :=
  match op with
  | .alloc t r o => g.minted op t o r
  | .attach t p => g.minted op t p.1 p.2
  | .dup t h => g.derived op t h t
  | .narrow t h _ => g.derived op t h t
  | .transferTo src h dst _ => g.derived op src h dst
  | .detach _ _ => { g with world := g.world.step op }
  | .revoke _ _ => { g with world := g.world.step op }

theorem step_world (g : Traced ι O) (op : Op ι O) : (g.step op).world = g.world.step op := by
  cases op <;> simp only [step, minted, derived] <;> first | rfl | (split <;> rfl)

/-- Erasing the record gives the plain run. -/
theorem exec_world : ∀ (ops : List (Op ι O)) (g : Traced ι O),
    (exec step g ops).world = exec World.step g.world ops
  | [], _ => rfl
  | op :: ops, g => by rw [exec_cons, exec_cons, exec_world ops, step_world]

/-! ## The invariant -/

/-- The lineage of an occupied slot: what it holds, below its ancestors, rooted
in a mint of the run. -/
def Explains (mints : List (O × Rights)) (s : SlotCore O) (l : Lineage O) : Prop :=
  s.object = some l.object ∧ s.rights = l.rights ∧ l.Attenuates ∧ l.root ∈ mints

def Faithful (g : Traced ι O) : Prop :=
  ∀ (t : ι) (i : Nat) (s : SlotCore O), (g.world t).slots[i]? = some s → s.object.isSome →
    ∃ l, g.lineage t i = some l ∧ Explains g.mints s l

omit [DecidableEq ι] in
theorem faithful_new (cap : ι → Nat) : Faithful (new cap : Traced ι O) := by
  intro t i s hs
  simp [new, World.new, withCapacity] at hs

theorem Explains.mono {mints : List (O × Rights)} {s : SlotCore O} {l : Lineage O}
    (h : Explains mints s l) (m : O × Rights) : Explains (m :: mints) s l :=
  ⟨h.1, h.2.1, h.2.2.1, List.mem_cons_of_mem _ h.2.2.2⟩

omit [DecidableEq ι] in
/-- A call that places nothing new keeps the record faithful: every occupied
slot was there before. -/
theorem Faithful.of_shrink {g : Traced ι O} (hg : Faithful g) {w : World ι O}
    (hw : ∀ (t : ι) (i : Nat) (s : SlotCore O), (w t).slots[i]? = some s → s.object.isSome →
      (g.world t).slots[i]? = some s) :
    Faithful { g with world := w } :=
  fun t i s hs hobj => hg t i s (hw t i s hs hobj) hobj

/-- A call that fills slot `i` of `t` and otherwise only empties slots keeps the
record faithful when it records a lineage explaining the new slot. -/
theorem Faithful.of_place {g : Traced ι O} (hg : Faithful g) {w : World ι O} {t : ι} {i : Nat}
    {s₀ : SlotCore O} {l : Lineage O} {mints : List (O × Rights)}
    (hm : ∀ s l, Explains g.mints s l → Explains mints s l)
    (hs₀ : (w t).slots[i]? = some s₀) (hl : Explains mints s₀ l)
    (hw : ∀ (u : ι) (j : Nat) (s : SlotCore O), ¬ (u = t ∧ j = i) → (w u).slots[j]? = some s → s.object.isSome →
      (g.world u).slots[j]? = some s) :
    Faithful ⟨w, record g.lineage t i (some l), mints⟩ := by
  intro u j s hs hobj
  by_cases hu : u = t ∧ j = i
  · obtain ⟨rfl, rfl⟩ := hu
    refine ⟨l, by simp [record], ?_⟩
    have : s₀ = s := Option.some.inj (hs₀.symm.trans hs)
    rwa [← this]
  · obtain ⟨l', hl', he⟩ := hg u j s (hw u j s hu hs hobj) hobj
    exact ⟨l', by simp [record, hu, hl'], hm s l' he⟩

/-- Vacating a slot of one table places nothing. -/
theorem shrink_freeSlot (w : World ι O) (t : ι) (k : Nat) (u : ι) (i : Nat) (s : SlotCore O)
    (hs : (Function.update w t ((w t).freeSlot k) u).slots[i]? = some s) (hobj : s.object.isSome) :
    (w u).slots[i]? = some s := by
  by_cases hu : u = t
  · subst hu
    rw [Function.update_self] at hs
    obtain ⟨hempty, hframe⟩ := freeSlot_slots (w u) k
    by_cases hi : i = k
    · subst hi
      simp [hempty s hs] at hobj
    · rwa [hframe i hi] at hs
  · rwa [Function.update_of_ne hu] at hs

/-- Filling slot `i` of one table places nothing elsewhere. -/
theorem frame_of_place {w : World ι O} {t : ι} {t' : CapTable O} {i : Nat}
    (hframe : ∀ j, j ≠ i → t'.slots[j]? = (w t).slots[j]?) (u : ι) (j : Nat) (s : SlotCore O)
    (hu : ¬ (u = t ∧ j = i)) (hs : (Function.update w t t' u).slots[j]? = some s) :
    (w u).slots[j]? = some s := by
  by_cases h : u = t
  · subst h
    rw [Function.update_self, hframe j (fun hj => hu ⟨rfl, hj⟩)] at hs
    exact hs
  · rwa [Function.update_of_ne h] at hs

theorem faithful_minted {g : Traced ι O} (hg : Faithful g) {op : Op ι O} {t : ι} {o : O}
    {r : Rights} (hstep : g.world.step op = Function.update g.world t ((g.world t).alloc r o).2) :
    Faithful (g.minted op t o r) := by
  simp only [minted]
  split
  · rename_i hp
    rw [hstep, alloc_of_placed_none hp, Function.update_eq_self]
    exact hg
  · rename_i i hp
    obtain ⟨h, t', gen, ha, hs, hframe⟩ := alloc_of_placed hp r o
    rw [hstep, ha]
    refine hg.of_place (fun s l h => h.mono _) (by rw [Function.update_self]; exact hs)
      ⟨rfl, rfl, trivial, List.mem_cons_self⟩ ?_
    exact fun u j s hu hs _ => frame_of_place hframe u j s hu hs

/-- A call that empties a slot of one table, or does nothing. -/
theorem Faithful.of_freed {g : Traced ι O} (hg : Faithful g) {t : ι} {t' : CapTable O}
    (ht : t' = g.world t ∨ ∃ p, t' = (g.world t).freeSlot p) :
    Faithful { g with world := Function.update g.world t t' } := by
  refine hg.of_shrink fun u i s hs hobj => ?_
  rcases ht with rfl | ⟨p, rfl⟩
  · rwa [Function.update_eq_self] at hs
  · exact shrink_freeSlot g.world t p u i s hs hobj

/-- What the three deriving calls share: where they fail they change nothing,
and where they succeed the new slot holds the parent's object with rights below
the parent's. -/
theorem faithful_derived {g : Traced ι O} (hg : Faithful g) {op : Op ι O} {src dst : ι}
    {h : Handle}
    (hfail : (∀ p, (g.world src).live h ≠ .ok p) ∨ (g.world dst).placed = none →
      g.world.step op = g.world)
    (hplace : ∀ p i s o, (g.world src).live h = .ok p → (g.world src).slots[p]? = some s →
      s.object = some o → (g.world dst).placed = some i → ∃ gen r, r ≤ s.rights ∧
        (g.world.step op dst).slots[i]? = some ⟨gen, r, some o⟩ ∧
        ∀ (u : ι) (j : Nat) (s' : SlotCore O), ¬ (u = dst ∧ j = i) →
          (g.world.step op u).slots[j]? = some s' → s'.object.isSome →
            (g.world u).slots[j]? = some s') :
    Faithful (g.derived op src h dst) := by
  cases hl : (g.world src).live h with
  | error e =>
      rw [derived, hl, hfail (.inl (by simp [hl]))]
      exact hg
  | ok p =>
      cases hp : (g.world dst).placed with
      | none =>
          rw [derived, hl, hp, hfail (.inr hp)]
          exact hg
      | some i =>
          obtain ⟨s, o, hs, ho, -, -⟩ := objectAt_of_live hl
          obtain ⟨gen, r, hr, hnew, hframe⟩ := hplace p i s o hl hs ho hp
          obtain ⟨l, hlin, hobj, hrights, hatt, hroot⟩ := hg src p s hs (by simp [ho])
          have hlo : o = l.object := by simpa [ho] using hobj
          rw [derived, hl, hp]
          simp only [hnew, hlin, Option.bind_eq_bind, Option.bind_some]
          refine hg.of_place (fun _ _ h => h) hnew ⟨rfl, rfl, ⟨hlo, ?_, hatt⟩, hroot⟩ hframe
          rwa [← hrights]

/-- Every call keeps the record faithful. -/
theorem faithful_step (g : Traced ι O) (op : Op ι O) (hg : Faithful g) : Faithful (g.step op) := by
  cases op with
  | alloc t r o => exact faithful_minted hg rfl
  | attach t p => exact faithful_minted hg rfl
  | dup t h =>
      refine faithful_derived hg (fun hf => ?_) (fun p i s o hl hs ho hp => ?_)
      · show Function.update g.world t ((g.world t).dup h).2 = g.world
        rw [dup_of_unplaced hf, Function.update_eq_self]
      · obtain ⟨h', t', gen, ha, hnew, hframe⟩ := alloc_of_placed hp s.rights o
        have hstep : g.world.step (.dup t h) = Function.update g.world t t' := by
          simp [World.step, World.call, dup, hl, objectAt, rightsAt, hs, ho, ha]
        rw [hstep, Function.update_self]
        exact ⟨gen, s.rights, Rights.le_refl _, hnew,
          fun u j s' hu hs' _ => frame_of_place hframe u j s' hu hs'⟩
  | narrow t h m =>
      refine faithful_derived hg (fun hf => ?_) (fun p i s o hl hs ho hp => ?_)
      · show Function.update g.world t ((g.world t).narrow h m).2 = g.world
        rw [narrow_of_unplaced hf, Function.update_eq_self]
      · obtain ⟨h', t', gen, ha, hnew, hframe⟩ := alloc_of_placed hp (s.rights.intersect m) o
        have hstep : g.world.step (.narrow t h m) = Function.update g.world t t' := by
          simp [World.step, World.call, narrow, hl, objectAt, rightsAt, hs, ho, ha]
        rw [hstep, Function.update_self]
        exact ⟨gen, s.rights.intersect m, Rights.intersect_le _ _, hnew,
          fun u j s' hu hs' _ => frame_of_place hframe u j s' hu hs'⟩
  | transferTo src h dst hne =>
      refine faithful_derived hg (fun hf => ?_) (fun p i s o hl hs ho hp => ?_)
      · show Function.update
          (Function.update g.world src ((g.world src).transferTo h (g.world dst)).2.1) dst
            ((g.world src).transferTo h (g.world dst)).2.2 = g.world
        rw [transferTo_of_unplaced hf, Function.update_eq_self, Function.update_eq_self]
      · obtain ⟨h', t', gen, ha, hnew, hframe⟩ := alloc_of_placed hp s.rights o
        have hstep : g.world.step (.transferTo src h dst hne) =
            Function.update (Function.update g.world src ((g.world src).freeSlot p)) dst t' := by
          simp [World.step, World.call, transferTo, attach, hl, objectAt, rightsAt, hs, ho, ha]
        rw [hstep, Function.update_self]
        refine ⟨gen, s.rights, Rights.le_refl _, hnew, fun u j s' hu hs' hobj => ?_⟩
        refine shrink_freeSlot g.world src p u j s' ?_ hobj
        have hframe' : ∀ k, k ≠ i → t'.slots[k]? =
            (Function.update g.world src ((g.world src).freeSlot p) dst).slots[k]? := by
          intro k hk
          rw [Function.update_of_ne hne.symm]
          exact hframe k hk
        exact frame_of_place hframe' u j s' hu hs'
  | detach t h =>
      show Faithful { g with world := Function.update g.world t ((g.world t).detach h).2 }
      refine hg.of_freed ?_
      cases hl : (g.world t).live h with
      | error e => exact .inl (by simp [detach, hl])
      | ok p =>
          obtain ⟨s', o, -, -, hobj', -⟩ := objectAt_of_live hl
          exact .inr ⟨p, by simp [detach, hl, hobj']⟩
  | revoke t h =>
      show Faithful { g with world := Function.update g.world t ((g.world t).revoke h).2 }
      refine hg.of_freed ?_
      cases hl : (g.world t).live h with
      | error e => exact .inl (by simp [revoke, hl])
      | ok p => exact .inr ⟨p, by simp [revoke, hl]⟩

theorem traced_faithful (cap : ι → Nat) (ops : List (Op ι O)) :
    Faithful (exec step (new cap) ops) :=
  exec_inv faithful_step ops (faithful_new cap)

/-- The table and handle a call derives from, and the table the new handle is for. -/
def source : Op ι O → Option (ι × Handle × ι)
  | .dup t h => some (t, h, t)
  | .narrow t h _ => some (t, h, t)
  | .transferTo src h dst _ => some (src, h, dst)
  | _ => none

/-- `m`, answered by `op` in `w`, resolves right after it in table `dst` to the
object `h` resolves to in table `src`, with rights within `h`'s. -/
def DerivedWithin (w : World ι O) (op : Op ι O) (src : ι) (h : Handle) (dst : ι) (m : Handle) :
    Prop :=
  ∃ (p : Nat) (s : SlotCore O) (i : Nat) (s' : SlotCore O),
    (w src).live h = .ok p ∧ (w src).slots[p]? = some s ∧
    (w.step op dst).live m = .ok i ∧ (w.step op dst).slots[i]? = some s' ∧
    s'.object = s.object ∧ s'.rights ≤ s.rights

omit [DecidableEq ι] in
theorem placed_lt {t : CapTable O} (hcap : t.cap ≤ 2 ^ 32) {i : Nat} (hp : t.placed = some i) :
    i < 2 ^ 32 := by
  simp only [placed] at hp
  split at hp
  · split at hp
    · cases hp
      exact BitVec.isLt _
    · cases hp
  · split at hp
    · cases hp
    · cases hp
      omega

/-- The deriving calls differ in the rights `r` handed to `alloc`. -/
theorem derivedWithin_of_alloc {w : World ι O} {op : Op ι O} {src dst : ι} {h m : Handle}
    {p : Nat} {s : SlotCore O} {o : O} {r : Rights} {t' : CapTable O}
    (hcap : (w dst).cap ≤ 2 ^ 32) (hl : (w src).live h = .ok p)
    (hs : (w src).slots[p]? = some s) (ho : s.object = some o) (hr : r ≤ s.rights)
    (ha : (w dst).alloc r o = (some m, t')) (hstep : w.step op dst = t') :
    DerivedWithin w op src h dst m := by
  cases hp : (w dst).placed with
  | none =>
      rw [alloc_of_placed_none hp] at ha
      cases ha
  | some i =>
      obtain ⟨m', hm', hlive⟩ := alloc_live hp (placed_lt hcap hp) r o
      obtain ⟨_, t'', g, ha', hnew, -⟩ := alloc_of_placed hp r o
      rw [ha] at hm' hlive ha'
      cases hm'
      cases ha'
      exact ⟨p, s, i, _, hl, hs, by rw [hstep]; exact hlive, by rw [hstep]; exact hnew,
        ho.symm, hr⟩

/-- Slot numbers beyond the handle's 32-bit field are excluded by the capacity. -/
theorem derived_handle {w : World ι O} {op : Op ι O} {src dst : ι} {h m : Handle}
    (hsrc : source op = some (src, h, dst)) (hm : (w.call op).1 = .handle (some m))
    (hcap : (w dst).cap ≤ 2 ^ 32) : DerivedWithin w op src h dst m := by
  cases op with
  | alloc | attach | detach | revoke => cases hsrc
  | dup t h' =>
      cases hsrc
      cases hl : (w src).live h with
      | error e => simp [World.call, dup, hl] at hm
      | ok p =>
          obtain ⟨s, o, hs, ho, hobj, hri⟩ := objectAt_of_live hl
          have hd : (w src).dup h = (w src).alloc s.rights o := by simp [dup, hl, hobj, hri]
          cases ha : (w src).alloc s.rights o with
          | mk m' t' =>
              rw [World.call, hd, ha] at hm
              cases hm
              refine derivedWithin_of_alloc hcap hl hs ho (Rights.le_refl _) ha ?_
              simp [World.step, World.call, hd, ha]
  | narrow t h' mask =>
      cases hsrc
      cases hl : (w src).live h with
      | error e => simp [World.call, narrow, hl] at hm
      | ok p =>
          obtain ⟨s, o, hs, ho, hobj, hri⟩ := objectAt_of_live hl
          have hd : (w src).narrow h mask = (w src).alloc (s.rights.intersect mask) o := by
            simp [narrow, hl, hobj, hri]
          cases ha : (w src).alloc (s.rights.intersect mask) o with
          | mk m' t' =>
              rw [World.call, hd, ha] at hm
              cases hm
              refine derivedWithin_of_alloc hcap hl hs ho (Rights.intersect_le _ _) ha ?_
              simp [World.step, World.call, hd, ha]
  | transferTo src' h' dst' hne =>
      cases hsrc
      cases hl : (w src).live h with
      | error e => simp [World.call, transferTo, hl] at hm
      | ok p =>
          obtain ⟨s, o, hs, ho, hobj, hri⟩ := objectAt_of_live hl
          cases ha : (w dst).alloc s.rights o with
          | mk m' t' =>
              cases m' with
              | none => simp [World.call, transferTo, attach, hl, hobj, hri, ha] at hm
              | some m' =>
                  have hmm : m' = m := by
                    simpa [World.call, transferTo, attach, hl, hobj, hri, ha] using hm
                  subst hmm
                  refine derivedWithin_of_alloc hcap hl hs ho (Rights.le_refl _) ha ?_
                  simp [World.step, World.call, transferTo, attach, hl, hobj, hri, ha]

/-- In every run, what a live handle holds came down, step by step within its
parent's rights, from a mint of that object. -/
theorem no_run_amplifies (cap : ι → Nat) (ops : List (Op ι O)) :
    (exec step (new cap) ops).world = World.reached cap ops ∧
    (∀ (t : ι) (h : Handle) (i : Nat), (World.reached cap ops t).live h = .ok i →
      ∃ (s : SlotCore O) (l : Lineage O) (m : Rights),
        (World.reached cap ops t).slots[i]? = some s ∧
        (exec step (new cap) ops).lineage t i = some l ∧
        s.object = some l.object ∧ s.rights = l.rights ∧ l.Attenuates ∧
        (l.object, m) ∈ (exec step (new cap) ops).mints ∧
        s.rights ≤ m ∧ ∀ b, s.rights.Carries b → m.Carries b) ∧
    ∀ (op : Op ι O) (src dst : ι) (h m : Handle), source op = some (src, h, dst) →
      ((World.reached cap ops).call op).1 = .handle (some m) → cap dst ≤ 2 ^ 32 →
      DerivedWithin (World.reached cap ops) op src h dst m := by
  have hw : (exec step (new cap) ops).world = (World.reached cap ops : World ι O) :=
    exec_world ops (new cap)
  refine ⟨hw, fun t h i hl => ?_, fun op src dst h m hsrc hm hcap => ?_⟩
  · obtain ⟨-, s, hs, hobj, -⟩ := live_ok.mp hl
    obtain ⟨l, hlin, ho, hr, hatt, hroot⟩ :=
      traced_faithful cap ops t i s (by rw [hw]; exact hs) hobj
    have hle : s.rights ≤ l.root.2 := by
      rw [hr]
      exact hatt.rights_le_root
    refine ⟨s, l, l.root.2, hs, hlin, ho, hr, hatt, ?_, hle, Rights.le_iff_carries.mp hle⟩
    rw [← hatt.root_object]
    exact hroot
  · exact derived_handle hsrc hm (by rw [(World.reached_sound cap ops dst).2]; exact hcap)

end Traced

end Yuva.Caps
