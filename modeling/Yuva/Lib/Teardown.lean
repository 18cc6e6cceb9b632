/-
# `Yuva.Lib.Teardown` — programs with one way to give up

A driver that finds a fault undoes what it has set up and stops: the same teardown `T` and the
same error `e` at every place where it gives up.  `Ends R T e x c a` says of a program `x`
that it goes on with `a` where `c` holds and otherwise gives up in that way, and that until
then it has moved the state along `R`, a preorder (what it may write to a log, say).  A program
that cannot give up is `Does R x a`.

    `Does.ret`, `Does.bind`, `Does.forM`     straight-line code and loops over a list
    `Ends.after`                               the same in front of a program that may give up
    `Ends.bind`                                one after another: both conditions
    `Ends.giveUp`                              the teardown itself

Nothing here mentions a particular device.
-/
import Mathlib.Order.Defs.Unbundled

namespace Yuva.Teardown

variable {σ η α β : Type}

/-- `x` cannot fail and returns `a`. -/
def Does (R : σ → σ → Prop) (x : EStateM η σ α) (a : α) : Prop := ∀ s, ∃ s', R s s' ∧ x s = .ok a s'

def Ends (R : σ → σ → Prop) (T : σ → σ) (e : η) (x : EStateM η σ α) (c : Prop) (a : α) : Prop :=
  ∀ s, ∃ s', R s s' ∧ (c ∧ x s = .ok a s' ∨ ¬ c ∧ x s = .error e (T s'))

theorem bind_ok {x : EStateM η σ α} {f : α → EStateM η σ β} {s s' : σ} {a : α} (h : x s = .ok a s') :
    (x >>= f) s = f a s' := by
  show EStateM.bind x f s = f a s'
  rw [EStateM.bind, h]

theorem bind_error {x : EStateM η σ α} {f : α → EStateM η σ β} {s s' : σ} {e : η} (h : x s = .error e s') :
    (x >>= f) s = .error e s' := by
  show EStateM.bind x f s = .error e s'
  rw [EStateM.bind, h]

variable {R : σ → σ → Prop} [IsPreorder σ R] {T : σ → σ} {e : η}
variable {x : EStateM η σ α} {f : α → EStateM η σ β} {a : α} {b : β} {c c' : Prop}

namespace Does

theorem ret (a : α) : Does R (pure a : EStateM η σ α) a := fun s => ⟨s, refl s, rfl⟩

theorem bind (hx : Does R x a) (hf : Does R (f a) b) : Does R (x >>= f) b := by
  intro s
  obtain ⟨s₁, h₁, hrun₁⟩ := hx s
  obtain ⟨s₂, h₂, hrun₂⟩ := hf s₁
  exact ⟨s₂, IsTrans.trans _ _ _ h₁ h₂, (bind_ok hrun₁).trans hrun₂⟩

theorem forM {g : β → EStateM η σ PUnit} {bs : List β} (h : ∀ b ∈ bs, Does R (g b) ⟨⟩) : Does R (bs.forM g) ⟨⟩ := by
  induction bs with
  | nil => exact ret PUnit.unit
  | cons b bs ih =>
      exact bind (h b List.mem_cons_self) (ih fun b hb => h b (List.mem_cons_of_mem _ hb))

omit [IsPreorder σ R] in
theorem ends (h : Does R x a) (hc : c) : Ends R T e x c a := by
  intro s
  obtain ⟨s', hR, hrun⟩ := h s
  exact ⟨s', hR, .inl ⟨hc, hrun⟩⟩

end Does

namespace Ends

theorem after (hx : Does R x a) (hf : Ends R T e (f a) c b) : Ends R T e (x >>= f) c b := by
  intro s
  obtain ⟨s₁, h₁, hrun⟩ := hx s
  obtain ⟨s₂, h₂, hcases⟩ := hf s₁
  rw [bind_ok hrun]
  exact ⟨s₂, IsTrans.trans _ _ _ h₁ h₂, hcases⟩

theorem bind (hx : Ends R T e x c a) (hf : Ends R T e (f a) c' b) : Ends R T e (x >>= f) (c ∧ c') b := by
  intro s
  obtain ⟨s₁, h₁, ⟨hc, hrun⟩ | ⟨hc, hrun⟩⟩ := hx s
  · obtain ⟨s₂, h₂, hcases⟩ := hf s₁
    refine ⟨s₂, IsTrans.trans _ _ _ h₁ h₂, ?_⟩
    rw [bind_ok hrun]
    exact hcases.imp (fun h => ⟨⟨hc, h.1⟩, h.2⟩) fun h => ⟨fun hboth => h.1 hboth.2, h.2⟩
  · exact ⟨s₁, h₁, .inr ⟨fun hboth => hc hboth.1, bind_error hrun⟩⟩

theorem giveUp (hx : ∀ s, x s = .error e (T s)) (hc : ¬ c) : Ends R T e x c a :=
  fun s => ⟨s, refl s, .inr ⟨hc, hx s⟩⟩

omit [IsPreorder σ R] in
theorem iff (h : Ends R T e x c a) (hc : c ↔ c') : Ends R T e x c' a := propext hc ▸ h

end Ends

end Yuva.Teardown
