/-
# `Yuva.Lib.Radix` — forests of tables in one store

A store of tables is a function from a table and an index to an entry; `child` reads
the table an entry points at, if it points at one.  Many trees grow in one store, so a
write to a cell may be seen from anywhere.  `Separated` rules that out: no table is
reached by two paths.  Then a write to a cell is seen by the paths that go through it
and by no others (`walk_set_of_separated`), and a fresh table hung into a vacant cell
keeps the forest separated (`separated_splice`).

Nothing here mentions a particular architecture.
-/
import Mathlib.Data.List.Infix
import Mathlib.Logic.Function.Basic

namespace Yuva.Radix

variable {α ι ε : Type*} (child : ε → Option α)

/-- The table a path of indices leads to. -/
def walk (tab : α → ι → ε) : α → List ι → Option α
  | t, [] => some t
  | t, i :: is =>
      match child (tab t i) with
      | none => none
      | some u => walk tab u is

/-- The store with one cell written. -/
def set [DecidableEq α] [DecidableEq ι] (tab : α → ι → ε) (t : α) (i : ι) (e : ε) : α → ι → ε :=
  fun s j => if s = t ∧ j = i then e else tab s j

variable {child} {tab : α → ι → ε}

theorem walk_append (t : α) (p q : List ι) :
    walk child tab t (p ++ q) = (walk child tab t p).bind fun u => walk child tab u q := by
  induction p generalizing t with
  | nil => rfl
  | cons i p ih =>
      rw [List.cons_append, walk, walk]
      cases child (tab t i) with
      | none => rfl
      | some u => exact ih u

theorem walk_snoc {t u : α} {p : List ι} (h : walk child tab t p = some u) (i : ι) :
    walk child tab t (p ++ [i]) = child (tab u i) := by
  rw [walk_append, h, Option.bind_some, walk]
  cases child (tab u i) <;> rfl

/-- A path depends only on the tables it goes through. -/
theorem walk_congr {tab' : α → ι → ε} {r : α} {p : List ι}
    (h : ∀ q j u, q ++ [j] <+: p → walk child tab r q = some u → tab' u j = tab u j) :
    walk child tab' r p = walk child tab r p := by
  induction p generalizing r with
  | nil => rfl
  | cons j p ih =>
      rw [walk, walk, h [] j r (List.prefix_append [j] p) rfl]
      cases hchild : child (tab r j) with
      | none => rfl
      | some u =>
          refine ih fun q k v hpre hwalk => h (j :: q) k v (List.prefix_cons_inj j |>.mpr hpre) ?_
          rw [walk, hchild]
          exact hwalk

section
variable [DecidableEq α] [DecidableEq ι]

@[simp] theorem set_self (t : α) (i : ι) (e : ε) : set tab t i e t i = e := if_pos ⟨rfl, rfl⟩

theorem set_of_ne {t s : α} {i j : ι} (h : ¬ (s = t ∧ j = i)) (e : ε) : set tab t i e s j = tab s j := if_neg h

/-- A path that never reads the cell does not see the write. -/
theorem walk_set_of_avoid {t : α} {i : ι} (e : ε) {r : α} {p : List ι}
    (h : ∀ q j, q ++ [j] <+: p → walk child tab r q = some t → j ≠ i) :
    walk child (set tab t i e) r p = walk child tab r p := by
  refine walk_congr fun q j u hpre hwalk => set_of_ne ?_ e
  rintro ⟨rfl, rfl⟩
  exact h q j hpre hwalk rfl

/-- Writing an entry that points where the old one did changes no path. -/
theorem walk_set_of_child_eq {t : α} {i : ι} {e : ε} (h : child e = child (tab t i)) (r : α) (p : List ι) :
    walk child (set tab t i e) r p = walk child tab r p := by
  induction p generalizing r with
  | nil => rfl
  | cons j p ih =>
      have hcell : child (set tab t i e r j) = child (tab r j) := by
        by_cases hat : r = t ∧ j = i
        · rw [hat.1, hat.2, set_self, h]
        · rw [set_of_ne hat]
      rw [walk, walk, hcell]
      cases child (tab r j) with
      | none => rfl
      | some u => exact ih u

end

/-- No table is reached by two of the paths in `ok`. -/
def Separated (child : ε → Option α) (ok : α → List ι → Prop) (tab : α → ι → ε) : Prop :=
  ∀ ⦃r p r' p' t⦄, ok r p → ok r' p' → walk child tab r p = some t → walk child tab r' p' = some t → r = r' ∧ p = p'

section
variable [DecidableEq α] [DecidableEq ι] {ok : α → List ι → Prop}

/-- In a separated forest a write to a cell is seen only through that cell. -/
theorem walk_set_of_separated (hsep : Separated child ok tab) {r t : α} {p : List ι} {i : ι} (hp : ok r p)
    (hwalk : walk child tab r p = some t) (e : ε) {r' : α} {p' : List ι}
    (hpre : ∀ q j, q ++ [j] <+: p' → ok r' q) (hoff : ¬ (r' = r ∧ p ++ [i] <+: p')) :
    walk child (set tab t i e) r' p' = walk child tab r' p' := by
  refine walk_set_of_avoid e fun q j hq hreach => ?_
  rintro rfl
  obtain ⟨rfl, rfl⟩ := hsep (hpre q j hq) hp hreach hwalk
  exact hoff ⟨rfl, hq⟩

/-- The table above the written cell stays where it was. -/
theorem walk_set_above (hsep : Separated child ok tab) {r t : α} {p : List ι} (i : ι) (hp : ok r p)
    (hwalk : walk child tab r p = some t) (e : ε) (hpre : ∀ q j, q ++ [j] <+: p → ok r q) :
    walk child (set tab t i e) r p = some t := by
  rw [walk_set_of_separated hsep hp hwalk e hpre, hwalk]
  rintro ⟨-, hlong⟩
  have := hlong.length_le
  rw [List.length_append, List.length_singleton] at this
  omega

/-- A fresh table with no children, hung into a vacant cell: the only new path is the one
through that cell, and the forest stays separated. -/
theorem walk_splice (hsep : Separated child ok tab) {r t f : α} {p : List ι} {i : ι} {e : ε} (hp : ok r p)
    (hpre : ∀ {r' p'}, ok r' p' → ∀ q j, q ++ [j] <+: p' → ok r' q)
    (hwalk : walk child tab r p = some t) (hvacant : child (tab t i) = none) (he : child e = some f)
    (hempty : ∀ j, child (tab f j) = none) (hnew : f ≠ t) {r' : α} {p' : List ι} (hp' : ok r' p') :
    walk child (set tab t i e) r' p' =
      if r' = r ∧ p' = p ++ [i] then some f else walk child tab r' p' := by
  by_cases hthrough : r' = r ∧ p ++ [i] <+: p'
  · obtain ⟨rfl, q, rfl⟩ := hthrough
    have habove := walk_set_above hsep i hp hwalk e (hpre hp)
    have hcell : walk child (set tab t i e) r' (p ++ [i]) = some f := by
      rw [walk_snoc habove, set_self, he]
    have hold : walk child tab r' (p ++ [i] ++ q) = none := by
      rw [walk_append, walk_snoc hwalk, hvacant]
      rfl
    rw [walk_append, hcell, Option.bind_some, hold]
    cases q with
    | nil => rw [List.append_nil, if_pos ⟨rfl, rfl⟩, walk]
    | cons j q =>
        rw [walk, set_of_ne (fun hat => hnew hat.1), hempty j, if_neg]
        rintro ⟨-, heq⟩
        have := congrArg List.length heq
        simp only [List.length_append, List.length_cons, List.length_nil] at this
        omega
  · rw [walk_set_of_separated hsep hp hwalk e (hpre hp') hthrough, if_neg]
    rintro ⟨rfl, rfl⟩
    exact hthrough ⟨rfl, List.prefix_refl _⟩

theorem separated_splice (hsep : Separated child ok tab) {r t f : α} {p : List ι} {i : ι} {e : ε} (hp : ok r p)
    (hpre : ∀ {r' p'}, ok r' p' → ∀ q j, q ++ [j] <+: p' → ok r' q)
    (hwalk : walk child tab r p = some t) (hvacant : child (tab t i) = none) (he : child e = some f)
    (hempty : ∀ j, child (tab f j) = none) (hfresh : ∀ r' p', ok r' p' → walk child tab r' p' ≠ some f) :
    Separated child ok (set tab t i e) := by
  have hnew : f ≠ t := fun heq => hfresh r p hp (heq ▸ hwalk)
  intro r₁ p₁ r₂ p₂ u h₁ h₂ hw₁ hw₂
  rw [walk_splice hsep hp hpre hwalk hvacant he hempty hnew h₁] at hw₁
  rw [walk_splice hsep hp hpre hwalk hvacant he hempty hnew h₂] at hw₂
  split at hw₁
  · next hat₁ =>
      split at hw₂
      · next hat₂ => exact ⟨hat₁.1.trans hat₂.1.symm, hat₁.2.trans hat₂.2.symm⟩
      · exact absurd (hw₂.trans hw₁.symm) (hfresh r₂ p₂ h₂)
  · split at hw₂
    · exact absurd (hw₁.trans hw₂.symm) (hfresh r₁ p₁ h₁)
    · exact hsep h₁ h₂ hw₁ hw₂

end

end Yuva.Radix
