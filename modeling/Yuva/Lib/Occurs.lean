/-
# `Yuva.Lib.Occurs` — where a pattern occurs in a text

A pattern occurs at position `i` of a text if the text goes on with it there.  `occurrences`
counts the positions.  Of a pattern that occurs once, every two occurrences are the same
(`eq_of_once`); so two such patterns that stand apart in a text stand next to each other
nowhere in it (`adjacent_iff`).

Nothing here mentions a particular text.
-/
import Mathlib.Data.List.Infix

namespace Yuva.Occurs

variable {α : Type} [DecidableEq α] {p q s : List α}

def occurrences (p s : List α) : Nat := (List.range s.length).countP fun i => p.isPrefixOf (s.drop i)

omit [DecidableEq α] in
theorem at_of_split {a b : List α} (h : s = a ++ p ++ b) : p <+: s.drop a.length := by
  rw [h, List.append_assoc, List.drop_left]
  exact List.prefix_append p b

theorem eq_of_once (honce : occurrences p s = 1) (hp : p ≠ []) {i j : Nat} (hi : p <+: s.drop i)
    (hj : p <+: s.drop j) : i = j := by
  rw [occurrences, List.countP_eq_length_filter] at honce
  obtain ⟨k, hk⟩ := List.length_eq_one_iff.mp honce
  have honly : ∀ i, p <+: s.drop i → i = k := by
    intro i hi
    have hlt : i < s.length := by
      refine Nat.lt_of_not_le fun hle => hp ?_
      rw [List.drop_eq_nil_of_le hle] at hi
      exact List.prefix_nil.mp hi
    have hmem : i ∈ (List.range s.length).filter fun i => p.isPrefixOf (s.drop i) :=
      List.mem_filter.mpr ⟨List.mem_range.mpr hlt, List.isPrefixOf_iff_prefix.mpr hi⟩
    rw [hk] at hmem
    exact List.mem_singleton.mp hmem
  rw [honly i hi, honly j hj]

/-- Two patterns that occur once are adjacent only where nothing is between them. -/
theorem adjacent_iff {a sep b : List α} (hp : p ≠ []) (hq : q ≠ []) (hponce : occurrences p s = 1)
    (hqonce : occurrences q s = 1) (h : s = a ++ p ++ sep ++ q ++ b) : p ++ q <:+: s ↔ sep = [] := by
  constructor
  · rintro ⟨c, d, hadj⟩
    have hpat : a.length = c.length :=
      eq_of_once hponce hp (at_of_split (b := sep ++ q ++ b) (by simp [h]))
        (at_of_split (b := q ++ d) (by simp [← hadj]))
    have hqat : (a ++ p ++ sep).length = (c ++ p).length :=
      eq_of_once hqonce hq (at_of_split h) (at_of_split (b := d) (by simp [← hadj]))
    simp only [List.length_append] at hqat
    exact List.length_eq_zero_iff.mp (by omega)
  · rintro rfl
    exact ⟨a, b, by simp [h]⟩

end Yuva.Occurs
