/-
# `Yuva.Lib.Resync` — cutting frames out of an unbounded stream

A receiver holds the unread part of a stream and looks at its front: what it
holds is refuted as a frame, still open, or begins with a whole frame of `n`
symbols.  `Framing` collects what such a look must satisfy for two receivers to
agree:

    frames   sees the whole stream, and moves right one symbol at a refuted front
    feed     sees one symbol at a time and holds only an open candidate

`feed_pending` and `feed_whole` say what one `feed` leaves of the frames of the
stream.  The side condition is `refuted_early`: a candidate may be refuted only
while it is no longer than the shortest frame, so that nothing left behind a
refuted candidate can be a whole frame already.

Nothing here mentions bytes or a particular format.
-/
import Mathlib.Data.List.Basic

namespace Yuva.Resync

/-- What the front of a buffer is. -/
inductive Look where
  | refuted
  | pending
  | whole (n : Nat)
deriving DecidableEq, Repr

/-- A look at the front of a buffer, stable under what arrives later. -/
structure Framing (α : Type) where
  look : List α → Look
  /-- No frame is shorter. -/
  shortest : Nat
  /-- No open candidate is as long. -/
  longest : Nat
  shortest_pos : 0 < shortest
  look_nil : look [] = .pending
  refuted_append : ∀ {b : List α} (s : List α), look b = .refuted → look (b ++ s) = .refuted
  whole_append : ∀ {b : List α} {n : Nat} (s : List α), look b = .whole n → look (b ++ s) = .whole n
  whole_bounds : ∀ {b : List α} {n : Nat}, look b = .whole n → shortest ≤ n ∧ n ≤ b.length
  whole_exact : ∀ {b : List α} {x : α} {n : Nat}, look b = .pending →
    look (b ++ [x]) = .whole n → n = b.length + 1
  refuted_early : ∀ {b : List α} {x : α}, look b = .pending →
    look (b ++ [x]) = .refuted → b.length < shortest
  pending_lt : ∀ {b : List α}, look b = .pending → b.length < longest

namespace Framing

variable {α : Type} (F : Framing α)

/-! ## The frames of a whole stream -/

/-- The frames of a stream, left to right. -/
def frames (s : List α) : List (List α) :=
  match s with
  | [] => []
  | x :: rest =>
      match _h : F.look (x :: rest) with
      | .refuted => frames rest
      | .pending => []
      | .whole n => (x :: rest).take n :: frames ((x :: rest).drop n)
termination_by s.length
decreasing_by
  · exact Nat.lt_succ_self _
  · have hn := Nat.lt_of_lt_of_le F.shortest_pos (F.whole_bounds _h).1
    rw [List.length_drop, List.length_cons]
    omega

theorem frames_pending {s : List α} (h : F.look s = .pending) : F.frames s = [] := by
  cases s with
  | nil => rw [frames]
  | cons x rest =>
      rw [frames]
      split <;> simp_all only [reduceCtorEq]

theorem frames_refuted {x : α} {s : List α} (h : F.look (x :: s) = .refuted) :
    F.frames (x :: s) = F.frames s := by
  rw [frames]
  split <;> simp_all only [reduceCtorEq]

theorem frames_whole {s : List α} {n : Nat} (h : F.look s = .whole n) :
    F.frames s = s.take n :: F.frames (s.drop n) := by
  cases s with
  | nil => rw [F.look_nil] at h; cases h
  | cons x rest =>
      rw [frames]
      split
      · simp_all only [reduceCtorEq]
      · simp_all only [reduceCtorEq]
      · rename_i m hm
        rw [h] at hm
        cases hm
        rfl

/-! ## Dropping refuted fronts -/

/-- The buffer from its first front that is not refuted. -/
def align : List α → List α
  | [] => []
  | x :: s =>
      match F.look (x :: s) with
      | .refuted => align s
      | .pending => x :: s
      | .whole _ => x :: s

theorem align_refuted {x : α} {s : List α} (h : F.look (x :: s) = .refuted) :
    F.align (x :: s) = F.align s := by
  rw [align, h]

theorem align_of_ne {s : List α} (h : F.look s ≠ .refuted) : F.align s = s := by
  cases s with
  | nil => rfl
  | cons x s =>
      rw [align]
      split
      · contradiction
      · rfl
      · rfl

theorem look_align (s : List α) : F.look (F.align s) ≠ .refuted := by
  induction s with
  | nil =>
      rw [align, F.look_nil]
      exact Look.noConfusion
  | cons x s ih =>
      cases h : F.look (x :: s) with
      | refuted =>
          rw [F.align_refuted h]
          exact ih
      | pending =>
          rw [F.align_of_ne (by rw [h]; exact Look.noConfusion), h]
          exact Look.noConfusion
      | whole n =>
          rw [F.align_of_ne (by rw [h]; exact Look.noConfusion), h]
          exact Look.noConfusion

theorem length_align_le (s : List α) : (F.align s).length ≤ s.length := by
  induction s with
  | nil => exact Nat.le_refl 0
  | cons x s ih =>
      by_cases h : F.look (x :: s) = .refuted
      · rw [F.align_refuted h]
        exact Nat.le_succ_of_le ih
      · exact Nat.le_of_eq (congrArg List.length (F.align_of_ne h))

/-- A refuted front stays refuted, so dropping it early loses no frame. -/
theorem frames_align (b s : List α) : F.frames (F.align b ++ s) = F.frames (b ++ s) := by
  induction b with
  | nil => rfl
  | cons x b ih =>
      by_cases h : F.look (x :: b) = .refuted
      · rw [F.align_refuted h, ih, List.cons_append]
        exact (F.frames_refuted (F.refuted_append s h)).symm
      · rw [F.align_of_ne h]

/-! ## One symbol at a time -/

/-- The frame length a buffer begins with. -/
def ready (b : List α) : Option Nat :=
  match F.look b with
  | .whole n => some n
  | .refuted => none
  | .pending => none

/-- Append one symbol and drop the fronts it refutes. -/
def feed (b : List α) (x : α) : List α × Option Nat :=
  (F.align (b ++ [x]), F.ready (F.align (b ++ [x])))

/-- What one symbol makes of an open candidate. -/
theorem feed_cases {b : List α} (x : α) (hb : F.look b = .pending) :
    (F.feed b x = (F.align (b ++ [x]), none) ∧ F.look (F.align (b ++ [x])) = .pending) ∨
      (F.feed b x = (b ++ [x], some (b ++ [x]).length) ∧
        F.look (b ++ [x]) = .whole (b ++ [x]).length) := by
  cases h : F.look (b ++ [x]) with
  | pending =>
      have ha : F.align (b ++ [x]) = b ++ [x] := F.align_of_ne (by rw [h]; exact Look.noConfusion)
      refine Or.inl ⟨?_, by rw [ha, h]⟩
      rw [feed, ready, ha, h]
  | whole n =>
      have ha : F.align (b ++ [x]) = b ++ [x] := F.align_of_ne (by rw [h]; exact Look.noConfusion)
      have hn : n = (b ++ [x]).length := by
        rw [F.whole_exact hb h, List.length_append, List.length_singleton]
      refine Or.inr ⟨?_, by rw [hn]⟩
      rw [feed, ready, ha, h, hn]
  | refuted =>
      -- what is left behind the refuted front is shorter than any frame
      have hlt : (F.align (b ++ [x])).length < F.shortest := by
        have hb' := F.refuted_early hb h
        cases b with
        | nil =>
            rw [List.nil_append] at h
            rw [List.nil_append, F.align_refuted h]
            exact F.shortest_pos
        | cons y b =>
            rw [List.cons_append] at h
            rw [List.cons_append, F.align_refuted h]
            have hle := F.length_align_le (b ++ [x])
            rw [List.length_append, List.length_singleton] at hle
            rw [List.length_cons] at hb'
            omega
      have hp : F.look (F.align (b ++ [x])) = .pending := by
        cases hl : F.look (F.align (b ++ [x])) with
        | refuted => exact absurd hl (F.look_align _)
        | pending => rfl
        | whole n =>
            have hw := F.whole_bounds hl
            omega
      refine Or.inl ⟨?_, hp⟩
      rw [feed, ready, hp]

theorem feed_pending {b b' : List α} {x : α} (s : List α) (hb : F.look b = .pending)
    (h : F.feed b x = (b', none)) :
    F.look b' = .pending ∧ F.frames (b ++ x :: s) = F.frames (b' ++ s) := by
  rcases F.feed_cases x hb with ⟨hf, hp⟩ | ⟨hf, -⟩
  · obtain ⟨rfl, -⟩ := Prod.mk.inj (hf.symm.trans h)
    exact ⟨hp, by rw [F.frames_align, List.append_assoc, List.singleton_append]⟩
  · cases hf.symm.trans h

theorem feed_whole {b b' : List α} {x : α} {n : Nat} (s : List α) (hb : F.look b = .pending)
    (h : F.feed b x = (b', some n)) :
    F.look b' = .whole n ∧ n = b'.length ∧ F.frames (b ++ x :: s) = b' :: F.frames s := by
  rcases F.feed_cases x hb with ⟨hf, -⟩ | ⟨hf, hw⟩
  · cases hf.symm.trans h
  · obtain ⟨rfl, hn⟩ := Prod.mk.inj (hf.symm.trans h)
    cases hn
    refine ⟨hw, rfl, ?_⟩
    have hs := F.frames_whole (F.whole_append s hw)
    rw [List.take_left, List.drop_left, List.append_assoc, List.singleton_append] at hs
    exact hs

end Framing

end Yuva.Resync
