/-
# `Yuva.Lib.Linked` — stacks threaded through the cells they hold

An intrusive stack keeps no cells of its own: the address of the next element is
stored in the element.  `Linked next null p xs` says that following `next` from `p`
visits `xs` and stops at `null`.  The list depends only on the links of its own cells
(`Linked.frame`), and a push is one write to the new cell (`Linked.push`).

Nothing here mentions a particular allocator.
-/
import Mathlib.Data.List.Basic
import Mathlib.Logic.Function.Basic

namespace Yuva

variable {α : Type*}

/-- Following `next` from `p` visits exactly `xs`, then `null`. -/
def Linked (next : α → α) (null : α) : α → List α → Prop
  | p, [] => p = null
  | p, x :: xs => p = x ∧ x ≠ null ∧ Linked next null (next x) xs

namespace Linked

variable {next next' : α → α} {null p : α} {xs : List α}

/-- Only the links of the listed cells matter. -/
theorem frame (h : Linked next null p xs) (hsame : ∀ x ∈ xs, next' x = next x) :
    Linked next' null p xs := by
  induction xs generalizing p with
  | nil => exact h
  | cons x xs ih =>
      obtain ⟨hp, hx, h⟩ := h
      refine ⟨hp, hx, ?_⟩
      rw [hsame x List.mem_cons_self]
      exact ih h fun y hy => hsame y (List.mem_cons_of_mem x hy)

theorem push [DecidableEq α] (h : Linked next null p xs) {a : α} (ha : a ≠ null) (hnew : a ∉ xs) :
    Linked (Function.update next a p) null a (a :: xs) := by
  refine ⟨rfl, ha, ?_⟩
  rw [Function.update_self]
  refine h.frame fun x hx => Function.update_of_ne ?_ p next
  intro heq
  exact hnew (heq ▸ hx)

theorem eq_nil_iff (h : Linked next null p xs) : xs = [] ↔ p = null := by
  cases xs with
  | nil => exact ⟨fun _ => h, fun _ => rfl⟩
  | cons x xs => exact ⟨fun hnil => absurd hnil (List.cons_ne_nil x xs), fun hp => absurd (h.1.symm.trans hp) h.2.1⟩

/-- A set closed under the links, `null` apart, holds everything a walk from it visits. -/
theorem subset {P : α → Prop} (hclosed : ∀ x, P x → next x = null ∨ P (next x))
    (h : Linked next null p xs) (hp : p = null ∨ P p) : ∀ x ∈ xs, P x := by
  induction xs generalizing p with
  | nil => exact fun _ hx => absurd hx List.not_mem_nil
  | cons x xs ih =>
      obtain ⟨rfl, hne, h⟩ := h
      have hPx := hp.resolve_left hne
      intro y hy
      rcases List.mem_cons.mp hy with rfl | hy
      · exact hPx
      · exact ih h (hclosed p hPx) y hy

end Linked

end Yuva
