/-
# `Yuva.Mem.Survival` — when the label of a forget decision may still change

The label of a decision at tick `d` closes its window with `now - d ≥ w` and accepts a touch
with `t - d ≤ w`.  The two meet at the tick `d + w`: there the window counts as elapsed, and
a touch still counts as inside it.  A read does not advance the clock, so both can happen at
that tick in either order, and a label read between them flips from positive to negative.

A run is timely when its first touch in the window comes before the window has elapsed
(`Timely`).  The labels of a run are stable exactly then.
-/
import Yuva.Mem.Bakeoff

namespace Yuva.Mem.Bakeoff

/-- What happens to a record after the decision: a read through `read_touch`, or a look at
its label. -/
inductive Event where
  | touch (tick : Nat)
  | observe (tick : Nat)
deriving DecidableEq, Repr

namespace Event

def tick : Event → Nat
  | touch t => t
  | observe t => t

/-- The tick of a touch at or after the decision. -/
def reTouch (d : Nat) : Event → Option Nat
  | touch t => if d ≤ t then some t else none
  | observe _ => none

end Event

/-- The tick of the first touch at or after the decision. -/
def firstTouch (d : Nat) (seen : List Event) : Option Nat := seen.findSome? (Event.reTouch d)

section Run

variable (d w : Nat) (run : List Event)

/-- The label at an event of the run, from the touches up to it. -/
def labelAt (i : Nat) (h : i < run.length) : SurvivalLabel :=
  survivalLabel d run[i].tick (firstTouch d (run.take (i + 1))) w

/-- A label that is resolved stays as it is. -/
def Stable : Prop :=
  ∀ (i j : Nat) (hi : i < run.length) (hj : j < run.length), i ≤ j →
    (labelAt d w run i hi).isResolved → labelAt d w run j hj = labelAt d w run i hi

/-- The first touch inside the window finds it open. -/
def TimelyStep (i : Nat) (h : i + 1 < run.length) : Prop :=
  ∀ t, run[i + 1] = .touch t → d ≤ t → t - d ≤ w → firstTouch d (run.take (i + 1)) = none →
    run[i].tick - d < w

def Timely : Prop := ∀ (i : Nat) (h : i + 1 < run.length), TimelyStep d w run i h

variable {d w run}

theorem reTouch_eq_some {e : Event} {t : Nat} (h : e.reTouch d = some t) : e = .touch t ∧ d ≤ t := by
  cases e with
  | touch t' =>
    rw [Event.reTouch] at h
    split_ifs at h with hle
    exact Option.some.inj h ▸ ⟨rfl, hle⟩
  | observe _ => exact nomatch h

theorem firstTouch_ge {seen : List Event} {t : Nat} (h : firstTouch d seen = some t) : d ≤ t := by
  obtain ⟨e, -, he⟩ := List.exists_of_findSome?_eq_some h
  exact (reTouch_eq_some he).2

theorem firstTouch_take_succ {i : Nat} (h : i < run.length) :
    firstTouch d (run.take (i + 1)) = (firstTouch d (run.take i)).or (run[i].reTouch d) := by
  rw [firstTouch, List.take_succ_eq_append_getElem h, List.findSome?_append, List.findSome?_singleton]
  rfl

theorem survivalLabel_none (now : Nat) :
    survivalLabel d now none w = if now - d ≥ w then .positive else .censored := rfl

theorem survivalLabel_some {now t : Nat} (ht : d ≤ t) :
    survivalLabel d now (some t) w =
      if t - d ≤ w then .negative else if now - d ≥ w then .positive else .censored := by
  rw [survivalLabel]
  dsimp only
  rw [if_pos ht]

theorem elapsed_of_isResolved {p : Prop} [Decidable p]
    (h : (if p then SurvivalLabel.positive else .censored).isResolved) : p := by
  by_contra hp
  rw [if_neg hp] at h
  exact nomatch h

/-- One event leaves a resolved label as it is, a late touch inside the window apart. -/
theorem labelAt_succ {i : Nat} (h : i + 1 < run.length) (hmono : run[i].tick ≤ run[i + 1].tick)
    (htimely : TimelyStep d w run i h) (hres : (labelAt d w run i (by omega)).isResolved) :
    labelAt d w run (i + 1) h = labelAt d w run i (by omega) := by
  rw [labelAt, firstTouch_take_succ h]
  rw [labelAt] at hres ⊢
  cases hfirst : firstTouch d (run.take (i + 1)) with
  | some t =>
    -- The touch stays the first one, and a window that has elapsed stays elapsed.
    have ht := firstTouch_ge hfirst
    rw [hfirst, survivalLabel_some ht] at hres
    rw [Option.some_or, survivalLabel_some ht, survivalLabel_some ht]
    by_cases hin : t - d ≤ w
    · rw [if_pos hin, if_pos hin]
    · rw [if_neg hin] at hres
      have helapsed := elapsed_of_isResolved hres
      rw [if_neg hin, if_neg hin, if_pos helapsed, if_pos (by omega)]
  | none =>
    rw [hfirst, survivalLabel_none] at hres
    have helapsed := elapsed_of_isResolved hres
    rw [Option.none_or, survivalLabel_none, if_pos helapsed]
    cases htouch : run[i + 1].reTouch d with
    | none =>
      rw [survivalLabel_none]
      exact if_pos (by omega)
    | some t =>
      obtain ⟨hevent, ht⟩ := reTouch_eq_some htouch
      have hlate : ¬ t - d ≤ w := fun hin => by
        have := htimely t hevent ht hin hfirst
        omega
      rw [survivalLabel_some ht, if_neg hlate]
      exact if_pos (by omega)

/-- A touch that comes too late makes the label flip. -/
theorem labelAt_flips {i : Nat} (h : i + 1 < run.length) (hlate : ¬ TimelyStep d w run i h) :
    labelAt d w run i (by omega) = .positive ∧ labelAt d w run (i + 1) h = .negative := by
  simp only [TimelyStep, not_forall, not_lt] at hlate
  obtain ⟨t, htouch, ht, hin, hfirst, helapsed⟩ := hlate
  have hre : run[i + 1].reTouch d = some t := by rw [htouch, Event.reTouch, if_pos ht]
  constructor
  · rw [labelAt, hfirst, survivalLabel_none, if_pos helapsed]
  · rw [labelAt, firstTouch_take_succ h, hfirst, Option.none_or, hre, survivalLabel_some ht, if_pos hin]

theorem stable_of_timely (hmono : run.Pairwise fun a b => a.tick ≤ b.tick) (htimely : Timely d w run) :
    Stable d w run := by
  intro i j hi hj hij hres
  induction j, hij using Nat.le_induction with
  | base => rfl
  | succ j hij ih =>
    have hlabel := ih (by omega)
    have htick := List.pairwise_iff_getElem.1 hmono j (j + 1) (by omega) hj (by omega)
    rw [labelAt_succ hj htick (htimely j hj) (hlabel ▸ hres), hlabel]

/-- The labels of a run never flip exactly when no first touch inside the window comes after
the window was seen to have elapsed. -/
theorem stable_iff_timely (hmono : run.Pairwise fun a b => a.tick ≤ b.tick) :
    Stable d w run ↔ Timely d w run := by
  refine ⟨fun hstable i h => ?_, stable_of_timely hmono⟩
  by_contra hlate
  obtain ⟨hpos, hneg⟩ := labelAt_flips h hlate
  have heq := hstable i (i + 1) (by omega) h (by omega) (by rw [hpos]; rfl)
  rw [hpos, hneg] at heq
  exact nomatch heq

end Run

/-- Looked at and touched at the tick the window closes. -/
def closingTick : List Event := [.observe 150, .touch 150, .observe 150]

theorem not_forall_stable :
    ¬ ∀ (d w : Nat) (run : List Event), run.Pairwise (fun a b => a.tick ≤ b.tick) → Stable d w run := by
  intro hall
  have h := hall 100 50 closingTick (by decide) 0 2 (by decide) (by decide) (by decide) (by decide)
  exact absurd h (by decide)

theorem closingTick_stable_iff_timely : Stable 100 50 closingTick ↔ Timely 100 50 closingTick :=
  stable_iff_timely (by decide)

end Yuva.Mem.Bakeoff
