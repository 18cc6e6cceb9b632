/-
# `Yuva.Lib.Relocate` — contents that move between places

`m : P → Option C` says what each place holds.  `Relocates m m'` says that `m'`
holds the same things, each in exactly one place: a permutation of the places
carries `m` to `m'`.  It is a preorder, so a run that relocates at every step
relocates from end to end, and moving a thing to a vacant place is one step of
it (`Relocates.of_move`).

`Recedes m m'` allows things to be lost as well: each thing of `m'` is traced back to
a place of `m`, no two to the same.  So no kind of thing is held in more places than
before (`Recedes.encard_le`).  `Gains` is the one way to hold more: a thing appears at
a vacant place (`Gains.encard_le`).

Nothing here mentions a particular system.
-/
import Mathlib.Logic.Equiv.Basic
import Mathlib.Data.Set.Card

namespace Yuva.Relocate

variable {P C : Type*}

/-- `m'` is `m` with the things in it moved about. -/
def Relocates (m m' : P → Option C) : Prop := ∃ e : Equiv.Perm P, ∀ p, m' (e p) = m p

namespace Relocates

theorem refl (m : P → Option C) : Relocates m m := ⟨Equiv.refl P, fun _ => rfl⟩

theorem trans {m m' m'' : P → Option C} (h : Relocates m m') (h' : Relocates m' m'') :
    Relocates m m'' := by
  obtain ⟨e, he⟩ := h
  obtain ⟨e', he'⟩ := h'
  refine ⟨e.trans e', fun p => ?_⟩
  rw [Equiv.trans_apply, he', he]

theorem of_eq {m m' : P → Option C} (h : ∀ p, m' p = m p) : Relocates m m' := by
  rw [funext h]
  exact refl m

/-- What `p` held is at `q`, which was vacant; nothing else changed. -/
theorem of_move [DecidableEq P] {m m' : P → Option C} {p q : P} (hq : m q = none)
    (hp' : m' p = none) (hq' : m' q = m p) (hframe : ∀ r, r ≠ p → r ≠ q → m' r = m r) :
    Relocates m m' := by
  refine ⟨Equiv.swap p q, fun r => ?_⟩
  by_cases hrp : r = p
  · subst hrp
    rw [Equiv.swap_apply_left, hq']
  · by_cases hrq : r = q
    · subst hrq
      rw [Equiv.swap_apply_right, hp', hq]
    · rw [Equiv.swap_apply_of_ne_of_ne hrp hrq, hframe r hrp hrq]

/-- `m` with what `p` holds moved to `q`. -/
def moved [DecidableEq P] (m : P → Option C) (p q r : P) : Option C :=
  if r = q then m p else if r = p then none else m r

theorem of_moved [DecidableEq P] {m : P → Option C} {p q : P} (hpq : p ≠ q) (hq : m q = none) :
    Relocates m (moved m p q) := by
  refine of_move (p := p) hq ?_ ?_ ?_
  · rw [moved, if_neg hpq, if_pos rfl]
  · rw [moved, if_pos rfl]
  · intro r hr hr'
    rw [moved, if_neg hr', if_neg hr]

/-- A thing held in exactly one place stays in exactly one place. -/
theorem existsUnique {m m' : P → Option C} (h : Relocates m m') {c : C}
    (hc : ∃! p, m p = some c) : ∃! p, m' p = some c := by
  obtain ⟨e, he⟩ := h
  obtain ⟨p, hp, huniq⟩ := hc
  refine ⟨e p, by simp only [he, hp], fun q hq => ?_⟩
  have hmq : m (e.symm q) = some c := by rw [← he, Equiv.apply_symm_apply, hq]
  rw [← huniq _ hmq, Equiv.apply_symm_apply]

end Relocates

/-- `m'` holds some of what `m` holds, each thing traced back to a place of its own. -/
def Recedes (m m' : P → Option C) : Prop :=
  ∃ f : P → P, Set.InjOn f {p | (m' p).isSome} ∧ ∀ p c, m' p = some c → m (f p) = some c

/-- The places that hold a thing of kind `Q`. -/
def holding (m : P → Option C) (Q : C → Prop) : Set P := {p | ∃ c, m p = some c ∧ Q c}

namespace Recedes

theorem of_le {m m' : P → Option C} (h : ∀ p c, m' p = some c → m p = some c) : Recedes m m' :=
  ⟨id, Set.injOn_id _, h⟩

theorem of_eq {m m' : P → Option C} (h : m' = m) : Recedes m m' := of_le fun p c hc => by rw [← h, hc]

theorem of_injective {m m' : P → Option C} {f : P → P} (hf : Function.Injective f)
    (h : ∀ p, m' p = m (f p)) : Recedes m m' :=
  ⟨f, hf.injOn, fun p _ hc => (h p).symm.trans hc⟩

theorem of_relocates {m m' : P → Option C} (h : Relocates m m') : Recedes m m' := by
  obtain ⟨e, he⟩ := h
  refine of_injective e.symm.injective fun p => ?_
  rw [← he, Equiv.apply_symm_apply]

theorem trans {m m' m'' : P → Option C} (h : Recedes m m') (h' : Recedes m' m'') : Recedes m m'' := by
  obtain ⟨f, hf, hm⟩ := h
  obtain ⟨g, hg, hm'⟩ := h'
  refine ⟨f ∘ g, ?_, fun p c hc => hm _ c (hm' p c hc)⟩
  refine hf.comp hg fun p hp => ?_
  obtain ⟨c, hc⟩ := Option.isSome_iff_exists.mp hp
  exact Option.isSome_iff_exists.mpr ⟨c, hm' p c hc⟩

/-- Whatever is held was held before, somewhere. -/
theorem held {m m' : P → Option C} (h : Recedes m m') {p : P} {c : C} (hc : m' p = some c) :
    ∃ q, m q = some c := by
  obtain ⟨f, -, hm⟩ := h
  exact ⟨f p, hm p c hc⟩

theorem encard_le {m m' : P → Option C} (h : Recedes m m') (Q : C → Prop) :
    (holding m' Q).encard ≤ (holding m Q).encard := by
  obtain ⟨f, hf, hm⟩ := h
  refine Set.encard_le_encard_of_injOn (f := f) ?_ ?_
  · rintro p ⟨c, hc, hq⟩
    exact ⟨c, hm p c hc, hq⟩
  · refine hf.mono ?_
    rintro p ⟨c, hc, -⟩
    exact Option.isSome_iff_exists.mpr ⟨c, hc⟩

end Recedes

/-- `c` appeared at a vacant place; nothing else changed. -/
def Gains (m m' : P → Option C) (c : C) : Prop :=
  ∃ q, m q = none ∧ m' q = some c ∧ ∀ p, p ≠ q → m' p = m p

namespace Gains

theorem held {m m' : P → Option C} {c : C} (h : Gains m m' c) {p : P} {d : C} (hd : m' p = some d) :
    d = c ∨ m p = some d := by
  obtain ⟨q, -, hq, hframe⟩ := h
  by_cases hp : p = q
  · subst hp
    exact .inl (Option.some.inj (hd.symm.trans hq))
  · exact .inr ((hframe p hp).symm.trans hd)

theorem encard_le {m m' : P → Option C} {c : C} (h : Gains m m' c) (Q : C → Prop) :
    (holding m' Q).encard ≤ (holding m Q).encard + 1 := by
  obtain ⟨q, hq0, hq, hframe⟩ := h
  refine (Set.encard_le_encard ?_).trans (Set.encard_insert_le _ q)
  rintro p ⟨d, hd, hQ⟩
  by_cases hp : p = q
  · exact .inl hp
  · exact .inr ⟨d, (hframe p hp).symm.trans hd, hQ⟩

/-- A thing of another kind does not count. -/
theorem encard_le_of_not {m m' : P → Option C} {c : C} (h : Gains m m' c) {Q : C → Prop} (hc : ¬ Q c) :
    (holding m' Q).encard ≤ (holding m Q).encard := by
  refine Set.encard_le_encard ?_
  rintro p ⟨d, hd, hQ⟩
  rcases h.held hd with rfl | hm
  · exact absurd hQ hc
  · exact ⟨d, hm, hQ⟩

end Gains

end Yuva.Relocate
