/-
# `Yuva.Lib.Select` — the first best element, by a left fold

A loop that keeps a candidate and replaces it by every element strictly better ends with
the first of the best elements.  "Better" need not be a total order: two elements of which
neither is better are tied, and it is enough that the ties are an equivalence
(`StrictWeak`).

Nothing here mentions a particular program.
-/
import Mathlib.Data.List.Basic
import Mathlib.Order.Lattice

namespace Yuva.Select

variable {α : Type*} {better : α → α → Prop}

/-- A strict order whose ties are transitive. -/
structure StrictWeak (better : α → α → Prop) : Prop where
  asymm : ∀ {a b}, better a b → ¬ better b a
  cotrans : ∀ {a b} (c), better a b → better a c ∨ better c b

/-- Every larger value is better. -/
theorem StrictWeak.of_key {κ : Type*} [LinearOrder κ] (key : α → κ) :
    StrictWeak fun a b => key b < key a where
  asymm h h' := lt_asymm h h'
  cotrans {_ b} c h := by
    rcases lt_or_ge (key b) (key c) with hc | hc
    · exact .inr hc
    · exact .inl (lt_of_le_of_lt hc h)

theorem StrictWeak.trans (h : StrictWeak better) {a b c : α} (hab : better a b) (hbc : better b c) :
    better a c := (h.cotrans c hab).resolve_right (h.asymm hbc)

variable [DecidableRel better]

/-- The candidate after a pass over `l`. -/
def select (better : α → α → Prop) [DecidableRel better] (b : α) (l : List α) : α :=
  l.foldl (fun b a => if better a b then a else b) b

theorem select_nil (b : α) : select better b [] = b := rfl

theorem select_cons (b a : α) (l : List α) :
    select better b (a :: l) = select better (if better a b then a else b) l := rfl

/-- `r` is the first best of `pre ++ r :: post`. -/
structure FirstBest (better : α → α → Prop) (pre : List α) (r : α) (post : List α) : Prop where
  worse : ∀ a ∈ pre, better r a
  notBetter : ∀ a ∈ post, ¬ better a r

/-- A pass keeps the candidate first best among everything seen. -/
theorem select_firstBest (hb : StrictWeak better) : ∀ (l : List α) (pre : List α) (r : α) (post : List α),
    FirstBest better pre r post →
    ∃ pre' post', pre ++ r :: post ++ l = pre' ++ select better r l :: post' ∧
      FirstBest better pre' (select better r l) post'
  | [], pre, r, post, h => ⟨pre, post, by rw [List.append_nil, select_nil], h⟩
  | a :: l, pre, r, post, h => by
    rw [select_cons]
    by_cases har : better a r
    · -- Everything seen is worse than the new candidate.
      have hseen : FirstBest better (pre ++ r :: post) a [] := by
        refine ⟨fun c hc => ?_, fun c hc => nomatch hc⟩
        rcases List.mem_append.1 hc with hpre | hrest
        · exact hb.trans har (h.worse c hpre)
        · rcases List.mem_cons.1 hrest with rfl | hpost
          · exact har
          · exact (hb.cotrans c har).resolve_right (h.notBetter c hpost)
      obtain ⟨pre', post', hsplit, hbest⟩ := select_firstBest hb l _ a [] hseen
      rw [if_pos har]
      exact ⟨pre', post', by rw [← hsplit, List.append_assoc _ [a] l, List.singleton_append], hbest⟩
    · have hseen : FirstBest better pre r (post ++ [a]) := by
        refine ⟨h.worse, fun c hc => ?_⟩
        rcases List.mem_append.1 hc with hpost | hlast
        · exact h.notBetter c hpost
        · rw [List.mem_singleton.1 hlast]
          exact har
      obtain ⟨pre', post', hsplit, hbest⟩ := select_firstBest hb l pre r (post ++ [a]) hseen
      rw [if_neg har]
      refine ⟨pre', post', ?_, hbest⟩
      rw [← hsplit]
      simp only [List.append_assoc, List.cons_append, List.nil_append]

/-- What stands before the selected element is worse, what stands behind is not better. -/
theorem select_spec (hb : StrictWeak better) (b : α) (l : List α) :
    ∃ pre post, b :: l = pre ++ select better b l :: post ∧ FirstBest better pre (select better b l) post :=
  select_firstBest hb l [] b [] ⟨fun _ h => (nomatch h), fun _ h => (nomatch h)⟩

theorem select_mem (hb : StrictWeak better) (b : α) (l : List α) : select better b l ∈ b :: l := by
  obtain ⟨pre, post, hsplit, -⟩ := select_spec hb b l
  rw [hsplit]
  exact List.mem_append_right _ List.mem_cons_self

theorem not_better_select (hb : StrictWeak better) (b : α) (l : List α) :
    ∀ a ∈ b :: l, ¬ better a (select better b l) := by
  obtain ⟨pre, post, hsplit, hbest⟩ := select_spec hb b l
  intro a ha
  rw [hsplit] at ha
  rcases List.mem_append.1 ha with hpre | hrest
  · exact hb.asymm (hbest.worse a hpre)
  · rcases List.mem_cons.1 hrest with rfl | hpost
    · exact fun h => hb.asymm h h
    · exact hbest.notBetter a hpost

end Yuva.Select
