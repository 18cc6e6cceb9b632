/-
# `Yuva.Lib.HeapTree` — complete binary trees in heap order

Node `n` has children `2n` and `2n+1`; the leaves of a tree of `m` leaves are
`m .. 2m-1` and the root is node 1.  `fill` computes the interior nodes from the
last one down to the first, `siblings` is the path that authenticates a node and
`climb` folds a node up its path:

    fill_closed       after `fill`, every interior node joins its two children
    climb_siblings    in such a tree, climbing a node's own siblings ends at the root

Nothing here mentions hashing.
-/
import Mathlib.Logic.Function.Basic
import Mathlib.Data.Nat.Bitwise

namespace Yuva.HeapTree

variable {N : Type*}

/-- Compute nodes `n`, `n - 1`, …, `1` from their children. -/
def fill (join : Nat → N → N → N) : Nat → (Nat → N) → Nat → N
  | 0, nodes => nodes
  | n + 1, nodes =>
      fill join n (Function.update nodes (n + 1)
        (join (n + 1) (nodes (2 * (n + 1))) (nodes (2 * (n + 1) + 1))))

theorem fill_of_lt (join : Nat → N → N → N) (n : Nat) (nodes : Nat → N) {m : Nat} (h : n < m) :
    fill join n nodes m = nodes m := by
  induction n generalizing nodes with
  | zero => rfl
  | succ n ih => rw [fill, ih _ (by omega), Function.update_of_ne (by omega)]

/-- Every interior node up to `n` joins its children. -/
def Closed (join : Nat → N → N → N) (n : Nat) (nodes : Nat → N) : Prop :=
  ∀ m, 1 ≤ m → m ≤ n → nodes m = join m (nodes (2 * m)) (nodes (2 * m + 1))

theorem fill_closed (join : Nat → N → N → N) (n : Nat) (nodes : Nat → N) :
    Closed join n (fill join n nodes) := by
  induction n generalizing nodes with
  | zero => intro m h1 h0; omega
  | succ n ih =>
      intro m h1 hm
      rw [fill]
      by_cases he : m = n + 1
      · subst he
        rw [fill_of_lt join n _ (by omega), fill_of_lt join n _ (by omega),
          fill_of_lt join n _ (by omega), Function.update_self, Function.update_of_ne (by omega),
          Function.update_of_ne (by omega)]
      · exact ih _ m h1 (by omega)

/-- The siblings met on the way from a node to the root. -/
def siblings (nodes : Nat → N) (node : Nat) : List N :=
  if h : 1 < node then nodes (node ^^^ 1) :: siblings nodes (node / 2) else []
termination_by node

theorem siblings_of_lt (nodes : Nat → N) {node : Nat} (h : 1 < node) :
    siblings nodes node = nodes (node ^^^ 1) :: siblings nodes (node / 2) := by
  rw [siblings, dif_pos h]

theorem siblings_of_le (nodes : Nat → N) {node : Nat} (h : ¬ 1 < node) : siblings nodes node = [] := by
  rw [siblings, dif_neg h]

theorem siblings_map {M : Type*} (f : N → M) (nodes : Nat → N) (node : Nat) :
    siblings (fun n => f (nodes n)) node = (siblings nodes node).map f := by
  by_cases h : 1 < node
  · rw [siblings_of_lt _ h, siblings_of_lt nodes h, List.map_cons, siblings_map f nodes (node / 2)]
  · rw [siblings_of_le _ h, siblings_of_le nodes h, List.map_nil]
termination_by node

/-- Fold `tmp`, the value of `node`, with the path from index `i` on. -/
def climb (join : Nat → N → N → N) (path : Nat → N) (node i : Nat) (tmp : N) : N :=
  if h : 1 < node then
    climb join path (node / 2) (i + 1)
      (if node &&& 1 = 1 then join (node / 2) (path i) tmp else join (node / 2) tmp (path i))
  else tmp
termination_by node

/-- What holds of the value of a node and of everything that was joined, holds at the end of the climb. -/
theorem climb_of_join {join : Nat → N → N → N} {P : N → Prop} (hjoin : ∀ n l r, P (join n l r)) (path : Nat → N)
    (node i : Nat) {tmp : N} (h : P tmp) : P (climb join path node i tmp) := by
  rw [climb]
  split
  · refine climb_of_join hjoin path (node / 2) (i + 1) ?_
    split
    · exact hjoin _ _ _
    · exact hjoin _ _ _
  · exact h
termination_by node

/-- A path of a node is as long as the node is deep. -/
theorem length_siblings (nodes : Nat → N) (h node : Nat) :
    2 ^ h ≤ node → node < 2 ^ (h + 1) → (siblings nodes node).length = h := by
  induction h generalizing node with
  | zero =>
      intro hlo hhi
      have : node = 1 := by omega
      rw [this, siblings_of_le nodes (Nat.lt_irrefl 1), List.length_nil]
  | succ h ih =>
      intro hlo hhi
      have hpos : 1 ≤ 2 ^ h := Nat.one_le_two_pow
      rw [Nat.pow_succ] at hlo hhi
      rw [Nat.pow_succ] at hhi
      rw [siblings_of_lt nodes (by omega), List.length_cons,
        ih (node / 2) (by omega) (by rw [Nat.pow_succ]; omega)]

theorem xor_one_of_odd {n : Nat} (h : n &&& 1 = 1) : n ^^^ 1 = 2 * (n / 2) ∧ n = 2 * (n / 2) + 1 := by
  rw [Nat.and_one_is_mod] at h
  refine ⟨?_, by omega⟩
  rw [Nat.xor_one_of_odd (Nat.odd_iff.mpr h)]
  omega

theorem xor_one_of_even {n : Nat} (h : ¬ n &&& 1 = 1) : n ^^^ 1 = 2 * (n / 2) + 1 ∧ n = 2 * (n / 2) := by
  rw [Nat.and_one_is_mod] at h
  refine ⟨?_, by omega⟩
  rw [Nat.xor_one_of_even (Nat.even_iff.mpr (by omega))]
  omega

/-- Climbing a node of a closed tree along its own siblings ends at the root. -/
theorem climb_siblings {join : Nat → N → N → N} {n : Nat} {nodes : Nat → N}
    (hc : Closed join n nodes) (path : Nat → N) (node i : Nat) (h1 : 1 ≤ node)
    (hn : node / 2 ≤ n)
    (hp : ∀ k s, (siblings nodes node)[k]? = some s → path (i + k) = s) :
    climb join path node i (nodes node) = nodes 1 := by
  rw [climb]
  split
  · rename_i hlt
    have hsib : path i = nodes (node ^^^ 1) := by
      refine hp 0 _ ?_
      rw [siblings_of_lt nodes hlt]
      rfl
    have hrest : ∀ k s, (siblings nodes (node / 2))[k]? = some s → path (i + 1 + k) = s := by
      intro k s hs
      rw [show i + 1 + k = i + (k + 1) by omega]
      refine hp (k + 1) s ?_
      rw [siblings_of_lt nodes hlt]
      exact hs
    have hparent := hc (node / 2) (by omega) hn
    have hstep : (if node &&& 1 = 1 then join (node / 2) (path i) (nodes node)
        else join (node / 2) (nodes node) (path i)) = nodes (node / 2) := by
      split
      · rename_i hodd
        obtain ⟨hx, hnode⟩ := xor_one_of_odd hodd
        rw [hparent, hsib, hx, ← hnode]
      · rename_i heven
        obtain ⟨hx, hnode⟩ := xor_one_of_even heven
        rw [hparent, hsib, hx, ← hnode]
    rw [hstep]
    exact climb_siblings hc path (node / 2) (i + 1) (by omega) (by omega) hrest
  · have : node = 1 := by omega
    rw [this]
termination_by node

end Yuva.HeapTree
