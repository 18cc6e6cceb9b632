/-
# `Yuva.Lib.Hand` — a clock hand over a fixed number of places

A hand that stands at `c` passes the places `c, c + 1, …` modulo `len`.  However its way is cut
into turns (`passed_append`), it passes every place in `len` steps (`mem_passed`) and no place
twice in as many (`nodup_passed`), so it comes back to none before it has passed all
(`passed_again`).
-/
import Mathlib.Data.List.Nodup
import Mathlib.Data.List.NodupEquivFin
import Mathlib.Data.Nat.ModEq

namespace Yuva.Hand

variable {len c n i : Nat}

/-- The places a hand at `c` passes in `n` steps. -/
def passed (len c n : Nat) : List Nat := (List.range n).map fun k => (c + k) % len

theorem length_passed : (passed len c n).length = n := by simp [passed]

theorem passed_mod : passed len (c % len) n = passed len c n := by
  simp only [passed, Nat.mod_add_mod]

theorem passed_append (m : Nat) : passed len c (m + n) = passed len c m ++ passed len (c + m) n := by
  simp only [passed, List.range_add, List.map_append, List.map_map]
  refine congrArg _ (List.map_congr_left fun k _ => ?_)
  rw [Function.comp_apply, Nat.add_assoc]

theorem passed_succ : passed len c (n + 1) = c % len :: passed len (c + 1) n := by
  rw [Nat.add_comm, passed_append]
  rfl

theorem nodup_passed (hn : n ≤ len) : (passed len c n).Nodup := by
  refine List.Nodup.map_on (fun a ha b hb hab => ?_) List.nodup_range
  have hcancel : a ≡ b [MOD len] := Nat.ModEq.add_left_cancel' c hab
  exact hcancel.eq_of_lt_of_lt ((List.mem_range.1 ha).trans_le hn) ((List.mem_range.1 hb).trans_le hn)

theorem mem_passed (hn : len ≤ n) (hi : i < len) : i ∈ passed len c n := by
  have hlen : 0 < len := Nat.zero_lt_of_lt hi
  refine List.mem_map.2 ⟨(i + (len - c % len)) % len, List.mem_range.2 ((Nat.mod_lt _ hlen).trans_le hn), ?_⟩
  have hc : c % len < len := Nat.mod_lt c hlen
  calc (c + (i + (len - c % len)) % len) % len
      = (c % len + (i + (len - c % len))) % len := by rw [Nat.add_mod_mod, Nat.mod_add_mod]
    _ = (i + len) % len := by congr 1; omega
    _ = i := by rw [Nat.add_mod_right, Nat.mod_eq_of_lt hi]

theorem passed_isPrefix {m : Nat} (h : m ≤ n) : passed len c m <+: passed len c n := by
  obtain ⟨k, rfl⟩ := Nat.exists_eq_add_of_le h
  rw [passed_append]
  exact List.prefix_append _ _

theorem eq_passed_of_isPrefix {pre : List Nat} (h : pre <+: passed len c n) : pre = passed len c pre.length := by
  have hlen : pre.length ≤ n := h.length_le.trans_eq length_passed
  exact (List.prefix_of_prefix_length_le h (passed_isPrefix hlen) length_passed.ge).eq_of_length length_passed.symm

/-- The hand comes back to a place only after it has passed all of them. -/
theorem passed_again {pre post : List Nat} (h : passed len c n = pre ++ i :: post) (hi : i ∈ pre) {j : Nat}
    (hj : j < len) : j ∈ pre := by
  have hpre : pre <+: passed len c n := h ▸ List.prefix_append _ _
  have hone : pre ++ [i] <+: passed len c n := by
    rw [h, List.append_cons pre i post]
    exact List.prefix_append _ _
  have hrepeat : ¬ (pre ++ [i]).Nodup := by
    rw [List.nodup_append']
    rintro ⟨-, -, hdisj⟩
    exact hdisj hi List.mem_cons_self
  rw [eq_passed_of_isPrefix hone, List.length_append, List.length_singleton] at hrepeat
  have hfull : len ≤ pre.length := by
    by_contra hlt
    exact hrepeat (nodup_passed (by omega))
  rw [eq_passed_of_isPrefix hpre]
  exact mem_passed hfull hj

end Yuva.Hand
