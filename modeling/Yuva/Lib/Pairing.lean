/-
# `Yuva.Lib.Pairing` — two partial maps that are each other's inverse

A waiting room keeps its occupants twice: each place names who is in it, each visitor knows
where it is.  The two maps are inverse to each other; pairing a visitor and a place that are
both free keeps them so, and so does parting a pair.  Pairing a visitor with a place that is
taken does not: the visitor who was there is named by no place.

Nothing here mentions a particular system.
-/
import Mathlib.Logic.Function.Basic

namespace Yuva.Pairing

variable {A B : Type*} {f : A → Option B} {g : B → Option A} {a : A} {b : B}

/-- `f` and `g` are inverse to each other where they are defined. -/
def Inverse (f : A → Option B) (g : B → Option A) : Prop := ∀ a b, f a = some b ↔ g b = some a

theorem inverse_empty : Inverse (fun _ : A => (none : Option B)) (fun _ : B => none) := by
  intro a b
  constructor
  · intro h
    cases h
  · intro h
    cases h

/-- A place nobody is named at holds nobody. -/
theorem Inverse.ne_of_free (h : Inverse f g) (hb : g b = none) (a : A) : f a ≠ some b := by
  intro ha
  rw [(h a b).mp ha] at hb
  cases hb

variable [DecidableEq A] [DecidableEq B]

theorem Inverse.pair (h : Inverse f g) (ha : f a = none) (hb : g b = none) :
    Inverse (Function.update f a (some b)) (Function.update g b (some a)) := by
  intro a' b'
  rw [Function.update_apply, Function.update_apply]
  split
  · next hxa =>
      subst hxa
      split
      · next hyb =>
          subst hyb
          exact ⟨fun _ => rfl, fun _ => rfl⟩
      · next hyb =>
          constructor
          · intro he
            exact absurd (Option.some.inj he).symm hyb
          · intro he
            rw [(h a' b').mpr he] at ha
            cases ha
  · next hxa =>
      split
      · next hyb =>
          subst hyb
          constructor
          · intro he
            exact absurd he (h.ne_of_free hb a')
          · intro he
            exact absurd (Option.some.inj he).symm hxa
      · exact h a' b'

theorem Inverse.part (h : Inverse f g) (hb : g b = some a) :
    Inverse (Function.update f a none) (Function.update g b none) := by
  have ha : f a = some b := (h a b).mpr hb
  intro a' b'
  rw [Function.update_apply, Function.update_apply]
  split
  · next hxa =>
      subst hxa
      split
      · constructor
        · intro he
          cases he
        · intro he
          cases he
      · next hyb =>
          constructor
          · intro he
            cases he
          · intro he
            rw [(h a' b').mpr he] at ha
            exact absurd (Option.some.inj ha) hyb
  · next hxa =>
      split
      · next hyb =>
          subst hyb
          constructor
          · intro he
            rw [(h a' b').mp he] at hb
            exact absurd (Option.some.inj hb) hxa
          · intro he
            cases he
      · exact h a' b'

omit [DecidableEq A] in
/-- Whoever was at a place that is given to another is named nowhere. -/
theorem Inverse.displaced (h : Inverse f g) {c : A} (hb : g b = some c) (hne : c ≠ a) (b' : B) :
    Function.update g b (some a) b' ≠ some c := by
  rw [Function.update_apply]
  split
  · intro he
    exact hne (Option.some.inj he).symm
  · next hyb =>
      intro he
      have hc : f c = some b := (h c b).mpr hb
      rw [(h c b').mpr he] at hc
      exact hyb (Option.some.inj hc)

end Yuva.Pairing
