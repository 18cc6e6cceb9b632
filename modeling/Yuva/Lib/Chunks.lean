/-
# `Yuva.Lib.Chunks` — a list cut into pieces of one length

`chunks n m` are the whole pieces of `m`, in order, and `rest n m` is what is left behind the
last of them.  A piece in front comes off on its own (`chunks_piece`), pieces in front of a list
can be cut first (`chunks_rest_append`), and a list that grows by one element either grows its rest
or completes a piece (`chunks_push_short`, `chunks_push_full`): this is how a buffer of `n`
elements is filled and flushed.

Nothing here mentions a particular format.
-/
import Mathlib.Data.List.Basic

namespace Yuva.Chunks

variable {α : Type} {n : Nat}

def chunks (n : Nat) (m : List α) : List (List α) :=
  if _ : 0 < n ∧ n ≤ m.length then m.take n :: chunks n (m.drop n) else []
termination_by m.length
decreasing_by
  rw [List.length_drop]
  omega

def rest (n : Nat) (m : List α) : List α := m.drop (n * (m.length / n))

theorem chunks_short {m : List α} (h : m.length < n) : chunks n m = [] := by
  rw [chunks, dif_neg (by omega)]

theorem rest_short {m : List α} (h : m.length < n) : rest n m = m := by
  rw [rest, Nat.div_eq_of_lt h, Nat.mul_zero, List.drop_zero]

theorem length_rest (m : List α) : (rest n m).length = m.length % n := by
  rw [rest, List.length_drop]
  have hdiv := Nat.div_add_mod m.length n
  omega

/-- A piece comes off the front. -/
theorem chunks_piece (hn : 0 < n) {a : List α} (m : List α) (ha : a.length = n) :
    chunks n (a ++ m) = a :: chunks n m := by
  rw [chunks, dif_pos ⟨hn, by rw [List.length_append]; omega⟩, List.take_left' ha, List.drop_left' ha]

theorem rest_piece (hn : 0 < n) {a : List α} (m : List α) (ha : a.length = n) : rest n (a ++ m) = rest n m := by
  have hdiv : (a ++ m).length / n = m.length / n + 1 := by
    rw [List.length_append, ha, Nat.add_div_left _ hn]
  have hoff : n * ((a ++ m).length / n) = a.length + n * (m.length / n) := by
    rw [hdiv, Nat.mul_succ, ha, Nat.add_comm]
  rw [rest, hoff, ← List.drop_drop, List.drop_left, rest]

/-- An induction that takes a piece at a time. -/
theorem piece_induction {motive : List α → Prop} (hn : 0 < n) (hshort : ∀ m, m.length < n → motive m)
    (hpiece : ∀ a m, a.length = n → motive m → motive (a ++ m)) (m : List α) : motive m := by
  by_cases h : m.length < n
  · exact hshort m h
  · have hrest := piece_induction hn hshort hpiece (m.drop n)
    have htake : (m.take n).length = n := by
      rw [List.length_take]
      omega
    have happ := hpiece (m.take n) (m.drop n) htake hrest
    rwa [List.take_append_drop] at happ
termination_by m.length
decreasing_by
  rw [List.length_drop]
  omega

/-- The pieces and the rest make up the list. -/
theorem flatten_chunks (hn : 0 < n) (m : List α) : (chunks n m).flatten ++ rest n m = m := by
  induction m using piece_induction hn with
  | hshort m h => rw [chunks_short h, rest_short h, List.flatten_nil, List.nil_append]
  | hpiece a m h ih => rw [chunks_piece hn _ h, rest_piece hn _ h, List.flatten_cons, List.append_assoc, ih]

/-- Behind the pieces of a list, its rest and what follows are cut on their own. -/
theorem chunks_rest_append (hn : 0 < n) (m b : List α) :
    chunks n (m ++ b) = chunks n m ++ chunks n (rest n m ++ b) := by
  induction m using piece_induction hn with
  | hshort m h => rw [chunks_short h, rest_short h, List.nil_append]
  | hpiece a m h ih => rw [List.append_assoc, chunks_piece hn _ h, chunks_piece hn _ h, rest_piece hn _ h, ih,
      List.cons_append]

theorem rest_rest_append (hn : 0 < n) (m b : List α) : rest n (m ++ b) = rest n (rest n m ++ b) := by
  induction m using piece_induction hn with
  | hshort m h => rw [rest_short h]
  | hpiece a m h ih => rw [List.append_assoc, rest_piece hn _ h, rest_piece hn _ h, ih]

/-! ## One element more -/

theorem chunks_push_short (hn : 0 < n) {m : List α} (x : α) (h : (rest n m).length + 1 < n) :
    chunks n (m ++ [x]) = chunks n m ∧ rest n (m ++ [x]) = rest n m ++ [x] := by
  have hlen : (rest n m ++ [x]).length < n := by
    rw [List.length_append, List.length_singleton]
    exact h
  rw [chunks_rest_append hn, rest_rest_append hn, chunks_short hlen, rest_short hlen, List.append_nil]
  exact ⟨rfl, rfl⟩

theorem chunks_push_full (hn : 0 < n) {m : List α} (x : α) (h : (rest n m).length + 1 = n) :
    chunks n (m ++ [x]) = chunks n m ++ [rest n m ++ [x]] ∧ rest n (m ++ [x]) = [] := by
  have hlen : (rest n m ++ [x]).length = n := by
    rw [List.length_append, List.length_singleton]
    exact h
  have hone := chunks_piece hn [] hlen
  have hnone := rest_piece hn [] hlen
  have hnil : ([] : List α).length < n := hn
  rw [List.append_nil] at hone hnone
  rw [chunks_rest_append hn, rest_rest_append hn, hone, hnone, chunks_short hnil, rest_short hnil]
  exact ⟨rfl, rfl⟩

end Yuva.Chunks
