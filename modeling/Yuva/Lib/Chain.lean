/-
# `Yuva.Lib.Chain` — hash chains

A chain folds the ids of a log into one head, `head (ids ++ [d]) = mix (head ids) d`.
The head commits to the log as far as `mix` does not collide: two logs of one
length with one head are the same log, or two of the pairs that were mixed on the
way collide (`eq_of_head_eq`).  Only the pairs the two folds really mix have to be
free of collisions, so the hypothesis can hold of a `mix` into a finite type.

Nothing here mentions a particular hash or log.
-/
import Mathlib.Data.List.Induction

namespace Yuva.Chain

variable {D : Type*} (mix : D → D → D) (g : D)

/-- The head after a list of ids, from the head `g`. -/
def head (ids : List D) : D := ids.foldl mix g

/-- The pairs the fold mixes, first to last. -/
def inputs : D → List D → List (D × D)
  | _, [] => []
  | h, d :: ds => (h, d) :: inputs (mix h d) ds

/-- No two different pairs, one from each list, mix to the same head. -/
def CollisionFree (ps qs : List (D × D)) : Prop :=
  ∀ p ∈ ps, ∀ q ∈ qs, mix p.1 p.2 = mix q.1 q.2 → p = q

variable {mix g}

theorem head_snoc (ids : List D) (d : D) : head mix g (ids ++ [d]) = mix (head mix g ids) d := by
  rw [head, List.foldl_append]
  rfl

theorem inputs_snoc (ids : List D) (d : D) :
    inputs mix g (ids ++ [d]) = inputs mix g ids ++ [(head mix g ids, d)] := by
  induction ids generalizing g with
  | nil => rfl
  | cons c ids ih => exact congrArg ((g, c) :: ·) ih

theorem CollisionFree.init {ps qs : List (D × D)} {p q : D × D}
    (h : CollisionFree mix (ps ++ [p]) (qs ++ [q])) : CollisionFree mix ps qs :=
  fun a ha b hb => h a (List.mem_append_left _ ha) b (List.mem_append_left _ hb)

theorem CollisionFree.last {ps qs : List (D × D)} {p q : D × D}
    (h : CollisionFree mix (ps ++ [p]) (qs ++ [q])) (hm : mix p.1 p.2 = mix q.1 q.2) : p = q :=
  h p (List.mem_append_right _ List.mem_cons_self) q (List.mem_append_right _ List.mem_cons_self) hm

/-- Where the mixing does not collide, a head has one log of a given length. -/
theorem eq_of_head_eq {ids ids' : List D} (hlen : ids.length = ids'.length)
    (hfree : CollisionFree mix (inputs mix g ids) (inputs mix g ids'))
    (hhead : head mix g ids = head mix g ids') : ids = ids' := by
  induction ids using List.reverseRecOn generalizing ids' with
  | nil => exact (List.length_eq_zero_iff.mp hlen.symm).symm
  | append_singleton ids d ih =>
      cases ids' using List.reverseRecOn with
      | nil => simp at hlen
      | append_singleton ids' d' =>
          rw [inputs_snoc, inputs_snoc] at hfree
          rw [head_snoc, head_snoc] at hhead
          obtain ⟨hinit, hlast⟩ := Prod.mk.inj (hfree.last hhead)
          have hlen' : ids.length = ids'.length := by
            rw [List.length_append, List.length_append] at hlen
            exact Nat.add_right_cancel hlen
          rw [ih hlen' hfree.init hinit, hlast]

end Yuva.Chain
