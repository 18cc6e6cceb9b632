/-
# `Yuva.Lib.Update` — in-place updates that keep a projection

A program that edits the elements of a list in place (one by index, the first
that matches, or all of them) leaves unchanged whatever projection `g` of the
elements its edit leaves unchanged.  One rule for each way of editing, and one
for a loop of edits.  Then what the edits keep of every element, what they make
of each position or key, and what one does to a sum over the elements.

Nothing here mentions a particular program.
-/
import Mathlib.Algebra.Order.BigOperators.Group.List
import Mathlib.Algebra.Order.Ring.Nat

namespace Yuva.Update

variable {α β γ : Type*} {g : α → β}

/-- The edit need only keep the projection of the element it meets. -/
theorem map_modify_of {f : α → α} {l : List α} {i : Nat} (hf : ∀ a, l[i]? = some a → g (f a) = g a) :
    (l.modify i f).map g = l.map g := by
  induction l generalizing i with
  | nil => rw [List.modify_nil]
  | cons a l ih =>
      cases i with
      | zero => rw [List.modify_zero_cons, List.map_cons, List.map_cons, hf a rfl]
      | succ i => rw [List.modify_succ_cons, List.map_cons, List.map_cons, ih hf]

theorem map_modify {f : α → α} (hf : ∀ a, g (f a) = g a) (l : List α) (i : Nat) :
    (l.modify i f).map g = l.map g := map_modify_of fun a _ => hf a

/-- An edit that a projection follows is an edit of the projections. -/
theorem map_modify_comm {f : α → α} {f' : β → β} (hf : ∀ a, g (f a) = f' (g a)) (l : List α) (i : Nat) :
    (l.modify i f).map g = (l.map g).modify i f' := by
  induction l generalizing i with
  | nil => rw [List.modify_nil, List.map_nil, List.modify_nil]
  | cons a l ih =>
      cases i with
      | zero => rw [List.modify_zero_cons, List.map_cons, List.map_cons, List.modify_zero_cons, hf]
      | succ i => rw [List.modify_succ_cons, List.map_cons, List.map_cons, List.modify_succ_cons, ih]

theorem map_replaceF {p : α → Bool} {f : α → α} (hf : ∀ a, g (f a) = g a) (l : List α) :
    (l.replaceF fun a => if p a then some (f a) else none).map g = l.map g := by
  induction l with
  | nil => rfl
  | cons a l ih =>
      cases hp : p a with
      | true =>
          have hs : (if p a then some (f a) else none) = some (f a) := if_pos hp
          rw [List.replaceF_cons_of_some _ hs, List.map_cons, List.map_cons, hf]
      | false =>
          have hs : (if p a then some (f a) else none) = none := if_neg (by simp [hp])
          rw [List.replaceF_cons_of_none _ hs, List.map_cons, List.map_cons, ih]

theorem map_map_ite {p : α → Bool} {f : α → α} (hf : ∀ a, g (f a) = g a) (l : List α) :
    (l.map fun a => if p a then f a else a).map g = l.map g := by
  rw [List.map_map]
  refine List.map_congr_left fun a _ => ?_
  cases hp : p a with
  | true => exact (congrArg g (if_pos hp)).trans (hf a)
  | false => exact congrArg g (if_neg (by simp [hp]))

/-- What one pass of a loop keeps, the loop keeps. -/
theorem foldl_keeps {f : α → γ → α} (hf : ∀ a c, g (f a c) = g a) (cs : List γ) (a : α) :
    g (cs.foldl f a) = g a := by
  induction cs generalizing a with
  | nil => rfl
  | cons c cs ih => exact (ih (f a c)).trans (hf a c)

/-! ## A property of every element -/

section Forall

variable {P : α → Prop} {f : α → α} {l : List α}

theorem forall_modify (hf : ∀ a, P a → P (f a)) (h : ∀ a ∈ l, P a) (i : Nat) : ∀ a ∈ l.modify i f, P a := by
  intro a ha
  obtain ⟨k, hk⟩ := List.getElem?_of_mem ha
  rw [List.getElem?_modify] at hk
  obtain ⟨b, hb, rfl⟩ := Option.map_eq_some_iff.1 hk
  have hPb := h b (List.mem_of_getElem? hb)
  split
  · exact hf b hPb
  · exact hPb

theorem forall_replaceF {p : α → Bool} (hf : ∀ a, P a → P (f a)) (h : ∀ a ∈ l, P a) :
    ∀ a ∈ l.replaceF (fun a => if p a then some (f a) else none), P a := by
  induction l with
  | nil => exact h
  | cons b l ih =>
      obtain ⟨hb, hl⟩ := List.forall_mem_cons.1 h
      cases hp : p b with
      | true =>
          have hs : (if p b then some (f b) else none) = some (f b) := if_pos hp
          rw [List.replaceF_cons_of_some _ hs]
          exact List.forall_mem_cons.2 ⟨hf b hb, hl⟩
      | false =>
          have hs : (if p b then some (f b) else none) = none := if_neg (by simp [hp])
          rw [List.replaceF_cons_of_none _ hs]
          exact List.forall_mem_cons.2 ⟨hb, ih hl⟩

theorem forall_map_ite {p : α → Bool} (hf : ∀ a, P a → P (f a)) (h : ∀ a ∈ l, P a) :
    ∀ a ∈ l.map (fun a => if p a then f a else a), P a := by
  intro a ha
  obtain ⟨b, hb, rfl⟩ := List.mem_map.1 ha
  split
  · exact hf b (h b hb)
  · exact h b hb

end Forall

/-- What every pass of a loop preserves, the loop preserves. -/
theorem foldl_invariant {P : α → Prop} {f : α → γ → α} (hf : ∀ a c, P a → P (f a c)) (cs : List γ) {a : α}
    (h : P a) : P (cs.foldl f a) := by
  induction cs generalizing a with
  | nil => exact h
  | cons c cs ih => exact ih (hf a c h)

/-- Only the edit of the element met matters. -/
theorem modify_congr {f f' : α → α} {l : List α} {i : Nat} (h : ∀ a, l[i]? = some a → f a = f' a) :
    l.modify i f = l.modify i f' := by
  refine List.ext_getElem? fun j => ?_
  rw [List.getElem?_modify, List.getElem?_modify]
  cases ha : l[j]? with
  | none => rfl
  | some a =>
      rcases eq_or_ne i j with rfl | hne
      · simp only [if_true, Option.map_eq_map, Option.map_some, h a ha]
      · simp only [if_neg hne]

/-- A loop that edits each of its positions once. -/
theorem getElem?_foldl_modify {f : α → α} {is : List Nat} (his : is.Nodup) (l : List α) (j : Nat) :
    (is.foldl (fun l i => l.modify i f) l)[j]? = if j ∈ is then l[j]?.map f else l[j]? := by
  induction is generalizing l with
  | nil => rfl
  | cons i is ih =>
      obtain ⟨hi, his⟩ := List.nodup_cons.1 his
      rw [List.foldl_cons, ih his, List.getElem?_modify]
      rcases eq_or_ne i j with rfl | hne
      · simp only [if_neg hi, if_pos List.mem_cons_self, if_true, Option.map_eq_map]
      · simp only [List.mem_cons, hne.symm, false_or, if_neg hne, Option.map_eq_map, Option.map_id']

/-! ## Edits by key -/

section Key

variable [DecidableEq β] {key : α → β} {f : α → α} {l : List α}

/-- Where keys are unique the first match is the only one. -/
theorem replaceF_key (h : (l.map key).Nodup) (k : β) :
    l.replaceF (fun a => if key a == k then some (f a) else none) =
      l.map fun a => if key a = k then f a else a := by
  induction l with
  | nil => rfl
  | cons b l ih =>
      obtain ⟨hb, hl⟩ := List.nodup_cons.1 h
      rw [List.map_cons]
      by_cases hk : key b = k
      · have hs : (if key b == k then some (f b) else none) = some (f b) := if_pos (beq_iff_eq.2 hk)
        have hrest : l.map (fun a => if key a = k then f a else a) = l := by
          have hother : ∀ a ∈ l, (if key a = k then f a else a) = a := fun a ha =>
            if_neg fun heq => hb (List.mem_map.2 ⟨a, ha, heq.trans hk.symm⟩)
          rw [List.map_congr_left hother, List.map_id']
        rw [List.replaceF_cons_of_some _ hs, if_pos hk, hrest]
      · have hs : (if key b == k then some (f b) else none) = none := if_neg (beq_iff_eq.not.2 hk)
        rw [List.replaceF_cons_of_none _ hs, if_neg hk, ih hl]

/-- A loop of edits by key, each key once, edits every element with such a key. -/
theorem foldl_replaceF_key (hf : ∀ a, key (f a) = key a) {ks : List β} (hks : ks.Nodup)
    (h : (l.map key).Nodup) :
    ks.foldl (fun l k => l.replaceF fun a => if key a == k then some (f a) else none) l =
      l.map fun a => if key a ∈ ks then f a else a := by
  induction ks generalizing l with
  | nil =>
      simp only [List.foldl_nil, List.not_mem_nil, if_false, List.map_id']
  | cons k ks ih =>
      obtain ⟨hk, hks⟩ := List.nodup_cons.1 hks
      have hkeys : ((l.map fun a => if key a = k then f a else a).map key) = l.map key := by
        rw [List.map_map]
        refine List.map_congr_left fun a _ => ?_
        rw [Function.comp_apply]
        split
        · exact hf a
        · rfl
      rw [List.foldl_cons, replaceF_key h, ih hks (hkeys ▸ h), List.map_map]
      refine List.map_congr_left fun a _ => ?_
      rw [Function.comp_apply]
      by_cases hka : key a = k
      · rw [if_pos hka, hf, if_neg (hka ▸ hk), if_pos (hka ▸ List.mem_cons_self)]
      · simp only [List.mem_cons, hka, if_false, false_or]

end Key

/-! ## Sums over an edited list -/

section Sum

variable {w : α → Nat} {f : α → α} {l : List α} {a : α}

theorem sum_modify {i : Nat} (h : l[i]? = some a) :
    ((l.modify i f).map w).sum + w a = (l.map w).sum + w (f a) := by
  induction l generalizing i with
  | nil => cases h
  | cons b l ih =>
      cases i with
      | zero =>
          obtain rfl : b = a := Option.some.inj h
          rw [List.modify_zero_cons, List.map_cons, List.map_cons, List.sum_cons, List.sum_cons]
          omega
      | succ i =>
          have hrest := ih (i := i) h
          rw [List.modify_succ_cons, List.map_cons, List.map_cons, List.sum_cons, List.sum_cons]
          omega

theorem sum_replaceF {p : α → Bool} (h : l.find? p = some a) :
    ((l.replaceF fun a => if p a then some (f a) else none).map w).sum + w a =
      (l.map w).sum + w (f a) := by
  induction l with
  | nil => cases h
  | cons b l ih =>
      cases hp : p b with
      | true =>
          have hs : (if p b then some (f b) else none) = some (f b) := if_pos hp
          obtain rfl : b = a := Option.some.inj ((List.find?_cons_of_pos hp).symm.trans h)
          rw [List.replaceF_cons_of_some _ hs, List.map_cons, List.map_cons, List.sum_cons, List.sum_cons]
          omega
      | false =>
          have hs : (if p b then some (f b) else none) = none := if_neg (by simp [hp])
          have hrest := ih ((List.find?_cons_of_neg (by simp [hp])).symm.trans h)
          rw [List.replaceF_cons_of_none _ hs, List.map_cons, List.map_cons, List.sum_cons, List.sum_cons]
          omega

theorem sum_map_ite_le {p : α → Bool} (hf : ∀ a, p a = true → w (f a) ≤ w a) :
    ((l.map fun a => if p a then f a else a).map w).sum ≤ (l.map w).sum := by
  rw [List.map_map]
  refine List.sum_le_sum fun a _ => ?_
  show w (if p a then f a else a) ≤ w a
  split
  · next ha => exact hf a ha
  · exact Nat.le_refl _

/-- Counted under distinct keys, no element counts twice. -/
theorem sum_countP_le [DecidableEq β] {keys : List β} (h : keys.Nodup) (g : α → β) (l : List α) :
    (keys.map fun k => l.countP fun a => g a == k).sum ≤ l.length := by
  induction keys generalizing l with
  | nil => exact Nat.zero_le _
  | cons k keys ih =>
      obtain ⟨hnew, hkeys⟩ := List.nodup_cons.mp h
      -- the other keys count among the elements that are left
      have hrest := ih hkeys (l.filter fun a => !(g a == k))
      have hsame : (keys.map fun k' => (l.filter fun a => !(g a == k)).countP fun a => g a == k') =
          keys.map fun k' => l.countP fun a => g a == k' := by
        refine List.map_congr_left fun k' hk' => ?_
        rw [List.countP_filter]
        refine List.countP_congr fun a _ => ?_
        have hne : k' ≠ k := fun heq => hnew (heq ▸ hk')
        simp only [Bool.and_eq_true, beq_iff_eq, Bool.not_eq_true', beq_eq_false_iff_ne, and_iff_left_iff_imp]
        exact fun hk => hk ▸ hne
      rw [hsame, ← List.countP_eq_length_filter] at hrest
      have hall := List.length_eq_countP_add_countP (l := l) fun a => g a == k
      simp only [Bool.not_eq_true, Bool.decide_eq_false] at hall
      rw [List.map_cons, List.sum_cons, hall]
      exact Nat.add_le_add_left hrest _

end Sum

end Yuva.Update
