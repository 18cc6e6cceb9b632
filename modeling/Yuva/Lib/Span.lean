/-
# `Yuva.Lib.Span` — a sorted table of spans

A table of entries, each with the half-open span `[lo, hi)` of a linear order, sorted by where
the spans begin.  In a table whose spans are pairwise apart a point is found, and a new span
checked, by looking at no more than the neighbours:

    the entry that owns a point is the last one that begins at or before it      (`owner_iff`)
    a span apart from the last entry that begins at or before its start, and from
      the first one that begins at or after it, is apart from every entry       (`clear_iff`)

Nothing here mentions a particular table.
-/
import Mathlib.Data.List.Basic
import Mathlib.Order.Lattice
import Mathlib.Order.OrderDual

namespace Yuva.Span

variable {ε α : Type*} [LinearOrder α] (lo hi : ε → α)

/-- The last entry that begins at or before `x`. -/
def atOrBefore (t : List ε) (x : α) : Option ε := t.reverse.find? fun e => lo e ≤ x

/-- The first entry that begins at or after `x`. -/
def atOrAfter (t : List ε) (x : α) : Option ε := t.find? fun e => x ≤ lo e

/-- The entry in its place; one that begins where it does is replaced. -/
def insert (e : ε) (t : List ε) : List ε :=
  t.filter (fun d => lo d < lo e) ++ e :: t.filter fun d => lo e < lo d

def Sorted (t : List ε) : Prop := t.Pairwise fun d e => lo d < lo e

/-- No point is in both spans. -/
def Apart (d e : ε) : Prop := hi d ≤ lo e ∨ hi e ≤ lo d

instance (d e : ε) : Decidable (Apart lo hi d e) := inferInstanceAs (Decidable (_ ∨ _))

variable {lo hi}

theorem Apart.symm {d e : ε} (h : Apart lo hi d e) : Apart lo hi e d := Or.symm h

theorem not_apart_iff {d e : ε} (hd : lo d < hi d) (he : lo e < hi e) :
    ¬ Apart lo hi d e ↔ ∃ x, (lo d ≤ x ∧ x < hi d) ∧ lo e ≤ x ∧ x < hi e := by
  constructor
  · intro h
    have h₁ : lo e < hi d := not_le.mp fun hle => h (.inl hle)
    have h₂ : lo d < hi e := not_le.mp fun hle => h (.inr hle)
    rcases le_total (lo d) (lo e) with hle | hle
    · exact ⟨lo e, ⟨hle, h₁⟩, le_refl _, he⟩
    · exact ⟨lo d, ⟨le_refl _, hd⟩, hle, h₂⟩
  · rintro ⟨x, ⟨hdx, hxd⟩, hex, hxe⟩ (hle | hle)
    · exact absurd (lt_of_lt_of_le hxd (hle.trans hex)) (lt_irrefl x)
    · exact absurd (lt_of_lt_of_le hxe (hle.trans hdx)) (lt_irrefl x)

/-! ## The table -/

theorem mem_insert {d e : ε} {t : List ε} : d ∈ insert lo e t ↔ d = e ∨ d ∈ t ∧ lo d ≠ lo e := by
  rw [insert, List.mem_append, List.mem_cons, List.mem_filter, List.mem_filter, decide_eq_true_iff, decide_eq_true_iff,
    ne_iff_lt_or_gt]
  tauto

theorem sorted_insert {e : ε} {t : List ε} (h : Sorted lo t) : Sorted lo (insert lo e t) := by
  rw [Sorted, insert, List.pairwise_append, List.pairwise_cons]
  refine ⟨h.filter _, ⟨?_, h.filter _⟩, ?_⟩
  · intro d hd
    exact of_decide_eq_true (List.mem_filter.mp hd).2
  · intro d hd d' hd'
    have hde : lo d < lo e := of_decide_eq_true (List.mem_filter.mp hd).2
    rcases List.mem_cons.mp hd' with rfl | hd'
    · exact hde
    · exact hde.trans (of_decide_eq_true (List.mem_filter.mp hd').2)

/-- Entries that begin at one point are one entry. -/
theorem Sorted.eq_of_lo {t : List ε} (h : Sorted lo t) {d e : ε} (hd : d ∈ t) (he : e ∈ t) (hlo : lo d = lo e) :
    d = e := by
  induction t with
  | nil => cases hd
  | cons a t ih =>
      have ha : ∀ b ∈ t, lo a < lo b := (List.pairwise_cons.mp h).1
      rcases List.mem_cons.mp hd with rfl | hdt <;> rcases List.mem_cons.mp he with rfl | het
      · rfl
      · exact absurd hlo (ha e het).ne
      · exact absurd hlo (ha d hdt).ne'
      · exact ih (List.pairwise_cons.mp h).2 hdt het

theorem atOrAfter_iff {t : List ε} (h : Sorted lo t) {x : α} {e : ε} :
    atOrAfter lo t x = some e ↔ e ∈ t ∧ x ≤ lo e ∧ ∀ d ∈ t, x ≤ lo d → lo e ≤ lo d := by
  induction t with
  | nil => exact ⟨(fun h => nomatch h), fun h => nomatch h.1⟩
  | cons a t ih =>
      have ha : ∀ b ∈ t, lo a < lo b := (List.pairwise_cons.mp h).1
      have hcons : atOrAfter lo (a :: t) x = if x ≤ lo a then some a else atOrAfter lo t x := by
        simp [atOrAfter, List.find?_cons]
        split_ifs <;> simp [*]
      rw [hcons]
      by_cases hx : x ≤ lo a
      · rw [if_pos hx]
        constructor
        · intro he
          obtain rfl : a = e := Option.some.inj he
          exact ⟨List.mem_cons_self, hx, List.forall_mem_cons.mpr ⟨fun _ => le_refl _, fun b hb _ => (ha b hb).le⟩⟩
        · rintro ⟨he, _, hmin⟩
          rcases List.mem_cons.mp he with rfl | het
          · rfl
          · exact absurd (hmin a List.mem_cons_self hx) (not_le.mpr (ha e het))
      · rw [if_neg hx]
        refine Iff.trans (ih (List.pairwise_cons.mp h).2) ⟨?_, ?_⟩
        · rintro ⟨he, hxe, hmin⟩
          exact ⟨List.mem_cons_of_mem _ he, hxe, List.forall_mem_cons.mpr ⟨fun hxa => absurd hxa hx, hmin⟩⟩
        · rintro ⟨he, hxe, hmin⟩
          rcases List.mem_cons.mp he with rfl | het
          · exact absurd hxe hx
          · exact ⟨het, hxe, fun d hd => hmin d (List.mem_cons_of_mem _ hd)⟩

theorem atOrBefore_iff {t : List ε} (h : Sorted lo t) {x : α} {e : ε} :
    atOrBefore lo t x = some e ↔ e ∈ t ∧ lo e ≤ x ∧ ∀ d ∈ t, lo d ≤ x → lo d ≤ lo e := by
  have hrev : Sorted (fun e => OrderDual.toDual (lo e)) t.reverse := List.pairwise_reverse.mpr h
  have hiff := atOrAfter_iff (x := OrderDual.toDual x) (e := e) hrev
  simpa [atOrAfter, atOrBefore] using hiff

theorem atOrBefore_eq_none {t : List ε} {x : α} : atOrBefore lo t x = none ↔ ∀ d ∈ t, x < lo d := by
  simp [atOrBefore]

theorem atOrAfter_eq_none {t : List ε} {x : α} : atOrAfter lo t x = none ↔ ∀ d ∈ t, lo d < x := by
  simp [atOrAfter]

/-! ## Points and new spans -/

variable {t : List ε} (hsorted : Sorted lo t) (hproper : ∀ d ∈ t, lo d < hi d)
variable (hapart : ∀ d ∈ t, ∀ e ∈ t, d ≠ e → Apart lo hi d e)

include hproper hapart in
/-- An entry that begins earlier ends before the later one begins. -/
theorem hi_le_of_lo_lt {d e : ε} (hd : d ∈ t) (he : e ∈ t) (hlt : lo d < lo e) : hi d ≤ lo e := by
  rcases hapart d hd e he fun h => absurd hlt (by rw [h]; exact lt_irrefl _) with hle | hle
  · exact hle
  · exact absurd (lt_of_le_of_lt hle hlt) (not_lt.mpr (hproper e he).le)

include hsorted hproper hapart in
theorem owner_iff {x : α} {e : ε} :
    (atOrBefore lo t x = some e ∧ x < hi e) ↔ e ∈ t ∧ lo e ≤ x ∧ x < hi e := by
  rw [atOrBefore_iff hsorted]
  constructor
  · rintro ⟨⟨he, hlo, _⟩, hhi⟩
    exact ⟨he, hlo, hhi⟩
  · rintro ⟨he, hlo, hhi⟩
    refine ⟨⟨he, hlo, fun d hd hdx => not_lt.mp fun hlt => ?_⟩, hhi⟩
    exact absurd (hi_le_of_lo_lt hproper hapart he hd hlt) (not_le.mpr (lt_of_le_of_lt hdx hhi))

include hsorted hproper hapart in
theorem clear_iff {s : ε} (hs : lo s < hi s) :
    (∀ d ∈ t, Apart lo hi d s) ↔
      (∀ p, atOrBefore lo t (lo s) = some p → hi p ≤ lo s) ∧ ∀ q, atOrAfter lo t (lo s) = some q → hi s ≤ lo q := by
  constructor
  · intro h
    refine ⟨fun p hp => ?_, fun q hq => ?_⟩
    · obtain ⟨hmem, hlo, -⟩ := (atOrBefore_iff hsorted).mp hp
      rcases h p hmem with hle | hle
      · exact hle
      · exact absurd (lt_of_lt_of_le hs hle) (not_lt.mpr hlo)
    · obtain ⟨hmem, hlo, -⟩ := (atOrAfter_iff hsorted).mp hq
      rcases h q hmem with hle | hle
      · exact absurd (lt_of_lt_of_le (hproper q hmem) hle) (not_lt.mpr hlo)
      · exact hle
  · rintro ⟨hbefore, hafter⟩ d hd
    rcases le_total (lo d) (lo s) with hle | hle
    · -- The neighbour begins no earlier than `d` does.
      cases hp : atOrBefore lo t (lo s) with
      | none => exact absurd (atOrBefore_eq_none.mp hp d hd) (not_lt.mpr hle)
      | some p =>
          obtain ⟨hmem, -, hmax⟩ := (atOrBefore_iff hsorted).mp hp
          rcases (hmax d hd hle).lt_or_eq with hlt | heq
          · exact .inl ((hi_le_of_lo_lt hproper hapart hd hmem hlt).trans ((hproper p hmem).le.trans (hbefore p hp)))
          · exact .inl (hsorted.eq_of_lo hd hmem heq ▸ hbefore p hp)
    · cases hq : atOrAfter lo t (lo s) with
      | none => exact absurd (atOrAfter_eq_none.mp hq d hd) (not_lt.mpr hle)
      | some q =>
          obtain ⟨-, -, hmin⟩ := (atOrAfter_iff hsorted).mp hq
          exact .inr ((hafter q hq).trans (hmin d hd hle))

end Yuva.Span
