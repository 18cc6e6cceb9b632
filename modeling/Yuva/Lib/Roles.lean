/-
# `Yuva.Lib.Roles` — typed stores of tables

`Yuva.Lib.Radix` rules out that two paths meet.  Where trees are shared on purpose that is too
much, and a typing is enough: every table in use has a role, and `next ρ i` is the role of what
cell `i` of a table of role `ρ` may point at, `none` where nobody follows the cell.  The roles
are themselves a store of tables, `next`, and a path through it (`walk id next`) is what the
path spells.

    Typed       what is followed leads to a table of the role called for
    Anchored    every top table leads to one and the same table along a path

Tables of different roles are different tables, so two paths that spell different roles never
meet.  Both notions survive a write to a cell nobody follows (`congr`), a fresh table hung into
a vacant cell (`hang`), and a fresh top table that points where another one does (`enter`).

Nothing here mentions a particular architecture.
-/
import Yuva.Lib.Radix

namespace Yuva.Radix

variable {α ι ε ρ : Type*} (child : ε → Option α) (next : ρ → ι → Option ρ)

/-- What is followed leads to a table of the role called for. -/
def Typed (tab : α → ι → ε) (role : α → Option ρ) : Prop :=
  ∀ t r i r' u, role t = some r → next r i = some r' → child (tab t i) = some u → role u = some r'

/-- Every table of role `top` leads to `u`. -/
def Anchored (tab : α → ι → ε) (role : α → Option ρ) (top : ρ) (q : List ι) (u : α) : Prop :=
  ∀ s, role s = some top → walk child tab s q = some u

variable {child next} {tab tab' : α → ι → ε} {role : α → Option ρ}

theorem walk_cons {t : α} {i : ι} {q : List ι} :
    walk child tab t (i :: q) = (child (tab t i)).bind fun u => walk child tab u q := by
  rw [walk]
  cases child (tab t i) <;> rfl

/-- A cell that is followed, and what the rest of the path spells. -/
theorem spells_cons {r r' : ρ} {i : ι} {q : List ι} :
    walk id next r (i :: q) = some r' ↔ ∃ r₁, next r i = some r₁ ∧ walk id next r₁ q = some r' := by
  rw [walk_cons, Option.bind_eq_some_iff]
  rfl

namespace Typed

theorem walk (h : Typed child next tab role) {t u : α} {r r' : ρ} {q : List ι} (ht : role t = some r)
    (hq : Radix.walk id next r q = some r') (hu : Radix.walk child tab t q = some u) : role u = some r' := by
  induction q generalizing t r with
  | nil =>
      cases hq
      cases hu
      exact ht
  | cons i q ih =>
      obtain ⟨r₁, hr₁, hq⟩ := spells_cons.mp hq
      rw [walk_cons, Option.bind_eq_some_iff] at hu
      obtain ⟨u₁, hu₁, hu⟩ := hu
      exact ih (h t r i r₁ u₁ ht hr₁ hu₁) hq hu

theorem congr (h : Typed child next tab role)
    (hsame : ∀ t r i r', role t = some r → next r i = some r' → child (tab' t i) = child (tab t i)) :
    Typed child next tab' role := by
  intro t r i r' u ht hr' hu
  rw [hsame t r i r' ht hr'] at hu
  exact h t r i r' u ht hr' hu

theorem walk_congr (h : Typed child next tab role)
    (hsame : ∀ t r i r', role t = some r → next r i = some r' → child (tab' t i) = child (tab t i))
    {t : α} {r r' : ρ} {q : List ι} (ht : role t = some r) (hq : Radix.walk id next r q = some r') :
    Radix.walk child tab' t q = Radix.walk child tab t q := by
  induction q generalizing t r with
  | nil => rfl
  | cons i q ih =>
      obtain ⟨r₁, hr₁, hq⟩ := spells_cons.mp hq
      rw [walk_cons, walk_cons, hsame t r i r₁ ht hr₁]
      cases hu : child (tab t i) with
      | none => rfl
      | some u => exact ih (h t r i r₁ u ht hr₁ hu) hq

theorem anchored_congr (h : Typed child next tab role)
    (hsame : ∀ t r i r', role t = some r → next r i = some r' → child (tab' t i) = child (tab t i))
    {top r : ρ} {q : List ι} {u : α} (hq : Radix.walk id next top q = some r)
    (hu : Anchored child tab role top q u) : Anchored child tab' role top q u := by
  intro s hs
  rw [h.walk_congr hsame hs hq]
  exact hu s hs

section
variable [DecidableEq α]

theorem update_fresh {f t : α} {r r' : ρ} (hf : role f = none) (ht : role t = some r) :
    Function.update role f (some r') t = some r := by
  rw [Function.update_of_ne, ht]
  rintro rfl
  rw [hf] at ht
  cases ht

/-- A fresh table takes the role its cells already agree with. -/
theorem enter (h : Typed child next tab role) {f : α} {r : ρ} (hf : role f = none)
    (hcells : ∀ i r' u, next r i = some r' → child (tab f i) = some u → role u = some r') :
    Typed child next tab (Function.update role f (some r)) := by
  intro t r₁ i r' u ht hr' hu
  by_cases htf : t = f
  · rw [htf, Function.update_self] at ht
    cases ht
    exact update_fresh hf (hcells i r' u hr' (htf ▸ hu))
  · rw [Function.update_of_ne htf] at ht
    exact update_fresh hf (h t r₁ i r' u ht hr' hu)

/-- A fresh top table that points where `s` does leads where `s` does, one step down and further. -/
theorem anchored_enter {f s : α} {top : ρ} (hs : role s = some top) (hcells : ∀ i, tab f i = tab s i) {q : List ι}
    (hne : q ≠ []) {u : α} (hu : Anchored child tab role top q u) :
    Anchored child tab (Function.update role f (some top)) top q u := by
  intro t ht
  by_cases htf : t = f
  · cases q with
    | nil => exact absurd rfl hne
    | cons i q =>
        rw [htf, walk_cons, hcells i, ← walk_cons]
        exact hu s hs
  · rw [Function.update_of_ne htf] at ht
    exact hu t ht

variable [DecidableEq ι] {t f : α} {i : ι} {r r' : ρ} {e : ε}

theorem hang (h : Typed child next tab role) (ht : role t = some r) (hr' : next r i = some r')
    (he : child e = some f) (hf : role f = none) (hempty : ∀ j, child (tab f j) = none) :
    Typed child next (set tab t i e) (Function.update role f (some r')) := by
  have htf : t ≠ f := by
    rintro rfl
    rw [hf] at ht
    cases ht
  intro t₁ r₁ j r₂ u ht₁ hr₂ hu
  by_cases hat : t₁ = t ∧ j = i
  · obtain ⟨rfl, rfl⟩ := hat
    rw [set_self, he] at hu
    rw [update_fresh hf ht] at ht₁
    cases ht₁
    cases hu
    rw [Function.update_self, ← hr', hr₂]
  · rw [set_of_ne hat] at hu
    by_cases htf₁ : t₁ = f
    · rw [htf₁, hempty j] at hu
      cases hu
    · rw [Function.update_of_ne htf₁] at ht₁
      exact update_fresh hf (h t₁ r₁ j r₂ u ht₁ hr₂ hu)

/-- The paths that see the new table end in it. -/
theorem walk_hang (h : Typed child next tab role) (ht : role t = some r) (hvacant : child (tab t i) = none)
    (he : child e = some f) (hf : role f = none) (hempty : ∀ j, child (tab f j) = none) {s : α} {r₀ r₁ : ρ}
    {q : List ι} (hs : role s = some r₀) (hq : Radix.walk id next r₀ q = some r₁) :
    Radix.walk child (set tab t i e) s q = Radix.walk child tab s q ∨
      Radix.walk child tab s q = none ∧ Radix.walk child (set tab t i e) s q = some f := by
  induction q generalizing s r₀ with
  | nil => exact .inl rfl
  | cons j q ih =>
      obtain ⟨r₂, hr₂, hq⟩ := spells_cons.mp hq
      by_cases hat : s = t ∧ j = i
      · obtain ⟨rfl, rfl⟩ := hat
        have hft : f ≠ s := by
          rintro rfl
          rw [hf] at hs
          cases hs
        rw [walk_cons, walk_cons, set_self, he, hvacant, Option.bind_none, Option.bind_some]
        cases q with
        | nil => exact .inr ⟨rfl, rfl⟩
        | cons k q => exact .inl (by rw [walk_cons, set_of_ne (fun hat => hft hat.1), hempty, Option.bind_none])
      · rw [walk_cons, walk_cons, set_of_ne hat]
        cases hu : child (tab s j) with
        | none => exact .inl rfl
        | some u => exact ih (h s r₀ j r₂ u hs hr₂ hu) hq

/-- What is anchored stays so under a hang, as long as the new table is not a top one. -/
theorem anchored_hang (h : Typed child next tab role) (ht : role t = some r) (hvacant : child (tab t i) = none)
    (he : child e = some f) (hf : role f = none) (hempty : ∀ j, child (tab f j) = none) {top r₁ : ρ} (hr' : r' ≠ top)
    {q : List ι} {u : α} (hq : Radix.walk id next top q = some r₁) (hu : Anchored child tab role top q u) :
    Anchored child (set tab t i e) (Function.update role f (some r')) top q u := by
  intro s hs
  have hs' : role s = some top := by
    by_cases hsf : s = f
    · rw [hsf, Function.update_self] at hs
      exact absurd (Option.some.inj hs) hr'
    · rwa [Function.update_of_ne hsf] at hs
  rcases h.walk_hang ht hvacant he hf hempty hs' hq with hsame | ⟨hnone, -⟩
  · rw [hsame]
    exact hu s hs'
  · rw [hu s hs'] at hnone
    cases hnone

/-- Below an anchored table the new one is anchored. -/
theorem anchored_hung (h : Typed child next tab role) (ht : role t = some r) (hvacant : child (tab t i) = none)
    (he : child e = some f) (hf : role f = none) (hempty : ∀ j, child (tab f j) = none) {top r₁ : ρ} (hr' : r' ≠ top)
    {q : List ι} (hq : Radix.walk id next top q = some r₁) (hu : Anchored child tab role top q t) :
    Anchored child (set tab t i e) (Function.update role f (some r')) top (q ++ [i]) f := by
  intro s hs
  rw [walk_snoc (h.anchored_hang ht hvacant he hf hempty hr' hq hu s hs), set_self, he]

end

end Typed

end Yuva.Radix
