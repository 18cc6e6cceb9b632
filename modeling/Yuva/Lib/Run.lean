/-
# `Yuva.Lib.Run` — runs of a deterministic machine

A machine is a step function `step : σ → α → σ`; a run is a list of labels
folded through it.  Seven rules carry every result about whole runs in this
development:

    a predicate every step keeps holds after every run            (`exec_inv`)
    a reflexive transitive relation every step respects, between
      states that satisfy an invariant, relates the two ends      (`exec_rel`)
    a predicate kept by the steps that meet a guard holds after
      every run all of whose steps meet it                        (`exec_guarded`)
    and where a step that misses the guard breaks it, it holds
      all along a run exactly when every step meets the guard     (`always_iff_guarded`)
    and a loop each of whose turns leaves or has less to do, leaves (`exec_reaches`)
    a machine that records its labels while it is live and stands still
      after holds a prefix of them, and all of them while it is live (`exec_taken`)
    a machine that answers every call as an abstract one does, answers
      every list of calls as it does                           (`converse_refines`)

Nothing here mentions a particular system.
-/
import Mathlib.Data.List.Basic

namespace Yuva.Run

variable {σ α : Type*}

/-- The state after a list of labels. -/
def exec (step : σ → α → σ) : σ → List α → σ
  | s, [] => s
  | s, a :: as => exec step (step s a) as

@[simp] theorem exec_nil (step : σ → α → σ) (s : σ) : exec step s [] = s := rfl

@[simp] theorem exec_cons (step : σ → α → σ) (s : σ) (a : α) (as : List α) :
    exec step s (a :: as) = exec step (step s a) as := rfl

theorem exec_append (step : σ → α → σ) (s : σ) (as bs : List α) :
    exec step s (as ++ bs) = exec step (exec step s as) bs := by
  induction as generalizing s with
  | nil => rfl
  | cons a as ih => exact ih (step s a)

/-- What every step keeps, every run keeps. -/
theorem exec_inv {step : σ → α → σ} {P : σ → Prop} (hstep : ∀ s a, P s → P (step s a)) :
    ∀ (as : List α) {s : σ}, P s → P (exec step s as) := by
  intro as
  induction as with
  | nil => intro s h; exact h
  | cons a as ih => intro s h; exact ih (hstep s a h)

/-- Where no step changes anything, no run does. -/
theorem exec_still {step : σ → α → σ} {s : σ} (hstill : ∀ a, step s a = s) (as : List α) : exec step s as = s :=
  exec_inv (P := (· = s)) (fun t a ht => by rw [ht, hstill]) as rfl

/-- A machine that writes down what it takes while it is live, and stands still after. -/
theorem exec_taken {step : σ → α → σ} (taken : σ → List α) (live : σ → Prop)
    (hgo : ∀ s a, live s → taken (step s a) = taken s ++ [a]) (hstill : ∀ s a, ¬live s → step s a = s) (s : σ)
    (as : List α) :
    taken (exec step s as) <+: taken s ++ as ∧ (live (exec step s as) → taken (exec step s as) = taken s ++ as) := by
  induction as generalizing s with
  | nil => exact ⟨List.prefix_append _ _, fun _ => (List.append_nil _).symm⟩
  | cons a as ih =>
      by_cases hlive : live s
      · have hrest := ih (step s a)
        rw [hgo s a hlive, List.append_assoc] at hrest
        exact hrest
      · rw [exec_still (fun b => hstill s b hlive)]
        exact ⟨List.prefix_append _ _, fun h => absurd h hlive⟩

/-- A preorder every step respects, on states satisfying `P`, relates the two
ends of every run. -/
theorem exec_rel {step : σ → α → σ} {P : σ → Prop} {R : σ → σ → Prop}
    (hrefl : ∀ s, R s s) (htrans : ∀ {s t u}, R s t → R t u → R s u)
    (hinv : ∀ s a, P s → P (step s a)) (hstep : ∀ s a, P s → R s (step s a)) :
    ∀ (as : List α) {s : σ}, P s → R s (exec step s as) := by
  intro as
  induction as with
  | nil => intro s _; exact hrefl s
  | cons a as ih => intro s h; exact htrans (hstep s a h) (ih (hinv s a h))

/-- Every step of the run from `s` meets the guard `G`. -/
def Guarded (step : σ → α → σ) (G : σ → α → Prop) : σ → List α → Prop
  | _, [] => True
  | s, a :: as => G s a ∧ Guarded step G (step s a) as

instance {step : σ → α → σ} {G : σ → α → Prop} [∀ s a, Decidable (G s a)] :
    ∀ s as, Decidable (Guarded step G s as)
  | _, [] => inferInstanceAs (Decidable True)
  | s, a :: as =>
      have : Decidable (Guarded step G (step s a) as) := instDecidableGuarded (step s a) as
      inferInstanceAs (Decidable (_ ∧ _))

theorem guarded_append {step : σ → α → σ} {G : σ → α → Prop} {as bs : List α} {s : σ} :
    Guarded step G s (as ++ bs) ↔ Guarded step G s as ∧ Guarded step G (exec step s as) bs := by
  induction as generalizing s with
  | nil => simp [Guarded]
  | cons a as ih => simp only [List.cons_append, Guarded, exec_cons, ih, and_assoc]

/-- A guarded run is one whose every step, from the state its prefix reaches, meets the guard. -/
theorem guarded_iff {step : σ → α → σ} {G : σ → α → Prop} {as : List α} {s : σ} :
    Guarded step G s as ↔ ∀ pre a post, as = pre ++ a :: post → G (exec step s pre) a := by
  constructor
  · rintro h pre a post rfl
    exact (guarded_append.mp h).2.1
  · intro h
    induction as generalizing s with
    | nil => exact trivial
    | cons a as ih =>
        refine ⟨h [] a as rfl, ih ?_⟩
        rintro pre b post rfl
        exact h (a :: pre) b post rfl

/-- What every guarded step keeps, every guarded run keeps. -/
theorem exec_guarded {step : σ → α → σ} {G : σ → α → Prop} {P : σ → Prop}
    (hstep : ∀ s a, G s a → P s → P (step s a)) :
    ∀ (as : List α) {s : σ}, Guarded step G s as → P s → P (exec step s as) := by
  intro as
  induction as with
  | nil => intro s _ h; exact h
  | cons a as ih => intro s hg h; exact ih hg.2 (hstep s a hg.1 h)

/-- Where the guard is exact, what holds in every state of a run is that its steps are guarded:
a guarded step keeps `P`, which gives `Q`, and an unguarded one breaks `Q`. -/
theorem always_iff_guarded {step : σ → α → σ} {G : σ → α → Prop} {P Q : σ → Prop}
    (hstep : ∀ s a, G s a → P s → P (step s a)) (hgood : ∀ s, P s → Q s)
    (hbad : ∀ s a, P s → ¬ G s a → ¬ Q (step s a)) (as : List α) {s : σ} (h : P s) :
    (∀ pre post, as = pre ++ post → Q (exec step s pre)) ↔ Guarded step G s as := by
  constructor
  · intro hall
    induction as generalizing s with
    | nil => exact trivial
    | cons a as ih =>
        have ha : G s a := not_not.mp fun hn => hbad s a h hn (hall [a] as rfl)
        refine ⟨ha, ih (hstep s a ha h) ?_⟩
        intro pre post heq
        exact hall (a :: pre) post (by rw [heq, List.cons_append])
  · rintro hg pre post rfl
    exact hgood _ (exec_guarded hstep pre (guarded_append.mp hg).1 h)

/-- A loop whose turns reach `Q` or stay in `P` with less left to do reaches `Q`. -/
theorem exec_reaches {step : σ → α → σ} {a : α} {P Q : σ → Prop} (μ : σ → Nat)
    (hstep : ∀ s, P s → Q (step s a) ∨ P (step s a) ∧ μ (step s a) < μ s) {s : σ} (h : P s) :
    ∃ k, Q (exec step s (List.replicate k a)) := by
  induction hμ : μ s using Nat.strongRecOn generalizing s with
  | ind n ih =>
      rcases hstep s h with hq | ⟨hp, hlt⟩
      · exact ⟨1, hq⟩
      · obtain ⟨k, hk⟩ := ih _ (hμ ▸ hlt) hp rfl
        exact ⟨k + 1, hk⟩

/-! ## Machines that answer -/

variable {τ β : Type*}

/-- The answers to a list of calls and the state they leave, unless a call stops the machine. -/
def converse (step : σ → α → Option (β × σ)) : σ → List α → Option (List β × σ)
  | s, [] => some ([], s)
  | s, a :: as =>
      match step s a with
      | none => none
      | some (b, s) => (converse step s as).map fun r => (b :: r.1, r.2)

/-- The same of a machine that no call stops. -/
def answers (spec : τ → α → β × τ) : τ → List α → List β × τ
  | t, [] => ([], t)
  | t, a :: as => ((spec t a).1 :: (answers spec (spec t a).2 as).1, (answers spec (spec t a).2 as).2)

/-- Calls answered alike, one by one, are answered alike in a run. -/
theorem converse_refines {step : σ → α → Option (β × σ)} {spec : τ → α → β × τ} {R : σ → τ → Prop}
    (hstep : ∀ s t a, R s t → ∃ s', step s a = some ((spec t a).1, s') ∧ R s' (spec t a).2) :
    ∀ (as : List α) {s : σ} {t : τ}, R s t →
      ∃ s', converse step s as = some ((answers spec t as).1, s') ∧ R s' (answers spec t as).2 := by
  intro as
  induction as with
  | nil => intro s t h; exact ⟨s, rfl, h⟩
  | cons a as ih =>
      intro s t h
      obtain ⟨s₁, hone, h₁⟩ := hstep s t a h
      obtain ⟨s₂, hrest, h₂⟩ := ih h₁
      refine ⟨s₂, ?_, h₂⟩
      rw [converse, hone]
      show (converse step s₁ as).map _ = _
      rw [hrest]
      rfl

/-- A run of a machine whose steps may go several ways. -/
inductive Runs (R : σ → α → σ → Prop) : σ → List α → σ → Prop
  | nil (s : σ) : Runs R s [] s
  | cons {s t u : σ} {a : α} {as : List α} : R s a t → Runs R t as u → Runs R s (a :: as) u

namespace Runs

variable {R R' : σ → α → σ → Prop} {s u : σ} {as bs : List α}

theorem imp (h : ∀ {s a t}, R s a t → R' s a t) (hrun : Runs R s as u) : Runs R' s as u := by
  induction hrun with
  | nil s => exact .nil s
  | cons hone _ ih => exact .cons (h hone) ih

theorem split (hrun : Runs R s (as ++ bs) u) : ∃ t, Runs R s as t ∧ Runs R t bs u := by
  induction as generalizing s with
  | nil => exact ⟨s, .nil s, hrun⟩
  | cons a as ih =>
      cases hrun with
      | cons hone hrest =>
          obtain ⟨t, hfront, hback⟩ := ih hrest
          exact ⟨t, .cons hone hfront, hback⟩

theorem inv {P : σ → Prop} {G : α → Prop} (hstep : ∀ {s a t}, R s a t → G a → P s → P t) (hrun : Runs R s as u)
    (hall : ∀ a ∈ as, G a) (hs : P s) : P u := by
  induction hrun with
  | nil s => exact hs
  | cons hone _ ih =>
      rw [List.forall_mem_cons] at hall
      exact ih hall.2 (hstep hone hall.1 hs)

end Runs

end Yuva.Run
