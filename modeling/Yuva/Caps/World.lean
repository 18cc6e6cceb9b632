/-
# `Yuva.Caps.World` — every principal's table, over whole runs

Any number of capability tables, indexed by a type `ι` of principals, driven by
any finite list of the seven calls of `tb-caps-core/src/table.rs`.  Rust's
borrow rules exclude `t.transfer_to(h, &mut t)`, so a transfer carries the proof
that its two tables differ.

**Proved here.**

    in every reachable state the free list of every table is exact up to
      retired slots, and the table is within its capacity          (`exec_sound`)
    slots persist and no generation decreases along a run          (`exec_grows`)
    a handle revoked, detached or moved away never resolves again  (`consumed_dead`, `exec_dead`)
    a vacant slot off the free list was vacated at `u32::MAX`      (`exec_retired`)

Attenuation along derivations is in `Yuva.Caps.Lineage`.
-/
import Yuva.Lib.Run
import Yuva.Caps.Table
import Mathlib.Logic.Function.Basic

namespace Yuva.Caps

open Yuva.Run CapTable

variable {ι O : Type*} [DecidableEq ι]

/-- One table per principal. -/
abbrev World (ι O : Type*) := ι → CapTable O

def World.new (cap : ι → Nat) : World ι O := fun t => withCapacity (cap t)

/-- The calls. -/
inductive Op (ι O : Type*) where
  | alloc (t : ι) (r : Rights) (o : O)
  | attach (t : ι) (parked : O × Rights)
  | dup (t : ι) (h : Handle)
  | narrow (t : ι) (h : Handle) (mask : Rights)
  | transferTo (src : ι) (h : Handle) (dst : ι) (hne : src ≠ dst)
  | detach (t : ι) (h : Handle)
  | revoke (t : ι) (h : Handle)

/-- What a call answers. -/
inductive Reply (O : Type*) where
  | handle (h : Option Handle)
  | parked (p : Except SysStatus (O × Rights))
  | status (s : SysStatus)

namespace World

/-- Run one call. -/
def call (w : World ι O) : Op ι O → Reply O × World ι O
  | .alloc t r o => let (h, t') := (w t).alloc r o; (.handle h, Function.update w t t')
  | .attach t p => let (h, t') := (w t).attach p; (.handle h, Function.update w t t')
  | .dup t h => let (h', t') := (w t).dup h; (.handle h', Function.update w t t')
  | .narrow t h m => let (h', t') := (w t).narrow h m; (.handle h', Function.update w t t')
  | .transferTo src h dst _ =>
      let (h', src', dst') := (w src).transferTo h (w dst)
      (.handle h', Function.update (Function.update w src src') dst dst')
  | .detach t h => let (p, t') := (w t).detach h; (.parked p, Function.update w t t')
  | .revoke t h => let (s, t') := (w t).revoke h; (.status s, Function.update w t t')

/-- The state after one call. -/
def step (w : World ι O) (op : Op ι O) : World ι O := (w.call op).2

/-- Updating one table changes that table only. -/
theorem update_change {w : World ι O} {t : ι} {t' : CapTable O} (h : Change (w t) t') (u : ι) :
    Change (w u) (Function.update w t t' u) := by
  by_cases hu : u = t
  · subst hu
    rw [Function.update_self]
    exact h
  · rw [Function.update_of_ne hu]
    exact .same

/-- A call changes each table by one of the four shapes. -/
theorem step_change (w : World ι O) (op : Op ι O) (u : ι) : Change (w u) (w.step op u) := by
  cases op with
  | alloc t r o => exact update_change (alloc_change (w t) r o) u
  | attach t p => exact update_change (alloc_change (w t) p.2 p.1) u
  | dup t h => exact update_change (dup_change (w t) h) u
  | narrow t h m => exact update_change (narrow_change (w t) h m) u
  | detach t h => exact update_change (detach_change (w t) h) u
  | revoke t h => exact update_change (revoke_change (w t) h) u
  | transferTo src h dst hne =>
      obtain ⟨hsrc, hdst⟩ := transferTo_change (w src) (w dst) h
      show Change (w u) (Function.update (Function.update w src _) dst _ u)
      by_cases hu : u = dst
      · subst hu
        rw [Function.update_self]
        exact hdst
      · rw [Function.update_of_ne hu]
        exact update_change hsrc u

/-! ## The free list and the capacity -/

/-- Every table satisfies the invariant and keeps its capacity. -/
def AllSound (cap : ι → Nat) (w : World ι O) : Prop :=
  ∀ t, Sound (w t) ∧ (w t).cap = cap t

omit [DecidableEq ι] in
theorem allSound_new (cap : ι → Nat) : AllSound cap (World.new cap : World ι O) :=
  fun t => ⟨sound_withCapacity (cap t), rfl⟩

theorem allSound_step {cap : ι → Nat} (w : World ι O) (op : Op ι O) (h : AllSound cap w) :
    AllSound cap (w.step op) :=
  fun t => ⟨(step_change w op t).sound (h t).1, by rw [(step_change w op t).cap_eq, (h t).2]⟩

theorem exec_sound {cap : ι → Nat} {w : World ι O} (h : AllSound cap w) (ops : List (Op ι O)) :
    AllSound cap (exec step w ops) :=
  exec_inv allSound_step ops h

/-! ## Generations and dead handles -/

theorem exec_grows (w : World ι O) (ops : List (Op ι O)) (t : ι) :
    Grows (w t) (exec step w ops t) :=
  exec_rel (P := fun _ => True) (R := fun w w' : World ι O => Grows (w t) (w' t))
    (fun w => Grows.refl (w t)) (fun h h' => h.trans h') (fun _ _ h => h)
    (fun w op _ => (step_change w op t).grows) ops trivial

theorem exec_dead {w : World ι O} {t : ι} {h : Handle} (hd : Dead (w t) h) (ops : List (Op ι O)) :
    Dead (exec step w ops t) h :=
  exec_inv (P := fun w : World ι O => Dead (w t) h)
    (fun w op hd => (step_change w op t).stays_dead hd) ops hd

/-- The call revokes, detaches or moves away `h` from table `t`, and says so. -/
def Consumes (w : World ι O) (op : Op ι O) (t : ι) (h : Handle) : Prop :=
  match op with
  | .revoke t' h' => t' = t ∧ h' = h ∧ (w.call op).1 = .status .ok
  | .detach t' h' => t' = t ∧ h' = h ∧ ∃ p, (w.call op).1 = .parked (.ok p)
  | .transferTo src h' _ _ => src = t ∧ h' = h ∧ ∃ m, (w.call op).1 = .handle (some m)
  | _ => False

/-- Where a call consumes `h`, it vacated the slot `h` resolved to. -/
theorem consumes_freeSlot {w : World ι O} {op : Op ι O} {t : ι} {h : Handle}
    (hc : Consumes w op t h) :
    ∃ i, (w t).live h = .ok i ∧ w.step op t = (w t).freeSlot i := by
  cases op with
  | alloc | attach | dup | narrow => exact hc.elim
  | revoke t' h' =>
      obtain ⟨rfl, rfl, hr⟩ := hc
      cases hl : (w t').live h' with
      | error e =>
          have hrev : (w t').revoke h' = (e, w t') := by simp [revoke, hl]
          rw [call, hrev] at hr
          cases hr
          exact absurd rfl (live_error_ne_ok hl)
      | ok i =>
          refine ⟨i, rfl, ?_⟩
          simp [step, call, revoke, hl]
  | detach t' h' =>
      obtain ⟨rfl, rfl, p, hr⟩ := hc
      cases hl : (w t').live h' with
      | error e => simp [call, detach, hl] at hr
      | ok i =>
          obtain ⟨s, o, -, -, hobj, -⟩ := objectAt_of_live hl
          exact ⟨i, rfl, by simp [step, call, detach, hl, hobj]⟩
  | transferTo src h' dst hne =>
      obtain ⟨rfl, rfl, m, hr⟩ := hc
      cases hl : (w src).live h' with
      | error e => simp [call, transferTo, hl] at hr
      | ok i =>
          obtain ⟨s, o, -, -, hobj, -⟩ := objectAt_of_live hl
          refine ⟨i, rfl, ?_⟩
          cases ha : (w dst).attach (o, (w src).rightsAt i) with
          | mk m' dst' =>
              cases m' with
              | none => simp [call, transferTo, hl, hobj, ha] at hr
              | some m' => simp [step, call, transferTo, hl, hobj, ha, Function.update_of_ne hne]

theorem consumed_dead {cap : ι → Nat} {w : World ι O} (hw : AllSound cap w) {op : Op ι O} {t : ι}
    {h : Handle} (hc : Consumes w op t h) : Dead (w.step op t) h := by
  obtain ⟨i, hl, he⟩ := consumes_freeSlot hc
  rw [he]
  exact dead_of_freeSlot (hw t).1 hl

/-! ## Retired slots -/

/-- Slot `i` of table `t` was vacated, somewhere along the run, at a generation
that could not be incremented. -/
def RetiredDuring (w : World ι O) (ops : List (Op ι O)) (t : ι) (i : Nat) : Prop :=
  ∃ pre op post s, ops = pre ++ op :: post ∧ (exec step w pre t).slots[i]? = some s ∧
    s.object.isSome ∧ s.generation = BitVec.allOnes 32 ∧
    ∃ s', (exec step w (pre ++ [op]) t).slots[i]? = some s' ∧ s'.object = none

theorem RetiredDuring.snoc {w : World ι O} {ops : List (Op ι O)} {t : ι} {i : Nat}
    (h : RetiredDuring w ops t i) (op : Op ι O) : RetiredDuring w (ops ++ [op]) t i := by
  obtain ⟨pre, op', post, s, rfl, h⟩ := h
  exact ⟨pre, op', post ++ [op], s, by simp, h⟩

theorem exec_retired {w : World ι O} {t : ι} {i : Nat} (hw : ¬ Stranded (w t) i)
    (ops : List (Op ι O)) (h : Stranded (exec step w ops t) i) : RetiredDuring w ops t i := by
  induction ops using List.reverseRecOn with
  | nil => exact absurd h hw
  | append_singleton ops op ih =>
      have h' := h
      rw [exec_append] at h
      rcases (step_change (exec step w ops) op t).stranded h with hs | ⟨s, hs, hobj, hg⟩
      · exact (ih hs).snoc op
      · obtain ⟨s', hs', hnone, -⟩ := h'
        exact ⟨ops, op, [], s, rfl, hs, hobj, hg, s', hs', hnone⟩

/-- The state a run from new tables of the given capacities ends in. -/
def reached (cap : ι → Nat) (ops : List (Op ι O)) : World ι O := exec step (World.new cap) ops

theorem reached_append (cap : ι → Nat) (pre post : List (Op ι O)) :
    reached cap (pre ++ post) = exec step (reached cap pre) post :=
  exec_append step (World.new cap) pre post

theorem reached_sound (cap : ι → Nat) (ops : List (Op ι O)) : AllSound cap (reached cap ops) :=
  exec_sound (allSound_new cap) ops

/-- The free list, the capacity, the generations and the fate of consumed
handles, in every state of every run from new tables. -/
theorem tables_exact_along_runs (cap : ι → Nat) (pre post : List (Op ι O)) :
    (∀ t, (reached cap pre t).free.Nodup ∧
      (∀ f ∈ (reached cap pre t).free, ∃ s : SlotCore O,
        (reached cap pre t).slots[f.toNat]? = some s ∧ s.object = none) ∧
      (∀ (i : Nat) (s : SlotCore O), (reached cap pre t).slots[i]? = some s → s.object = none →
        (∃ f ∈ (reached cap pre t).free, f.toNat = i) ∨
          RetiredDuring (World.new cap) pre t i) ∧
      (reached cap pre t).slots.length ≤ cap t) ∧
    (∀ (t : ι) (i : Nat) (s : SlotCore O), (reached cap pre t).slots[i]? = some s →
      ∃ s' : SlotCore O, (reached cap (pre ++ post) t).slots[i]? = some s' ∧
        s.generation.toNat ≤ s'.generation.toNat) ∧
    (∀ (op : Op ι O) (t : ι) (h : Handle), Consumes (reached cap pre) op t h →
      ∀ i, (reached cap (pre ++ op :: post) t).live h ≠ .ok i) := by
  have hw : AllSound cap (reached cap pre : World ι O) := reached_sound cap pre
  refine ⟨fun t => ⟨(hw t).1.nodup, (hw t).1.vacant, ?_, ?_⟩, ?_, ?_⟩
  · intro i s hs hnone
    by_cases hf : ∃ f ∈ (reached cap pre t).free, f.toNat = i
    · exact .inl hf
    · refine .inr (exec_retired ?_ pre ⟨s, hs, hnone, fun f hm he => hf ⟨f, hm, he⟩⟩)
      rintro ⟨s', hs', -⟩
      simp [World.new, withCapacity] at hs'
  · have := (hw t).1.bounded
    rwa [(hw t).2] at this
  · intro t
    rw [reached_append]
    exact exec_grows _ post t
  · intro op t h hc i
    rw [reached_append]
    exact (exec_dead (consumed_dead hw hc) post).not_live i

end World

end Yuva.Caps
