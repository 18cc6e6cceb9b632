/-
# `Yuva.Lib.Overlay` — pieces laid over one another

A piece is a run of values at an address.  Pieces laid down one after another show, at
every address, the value of the last piece that reaches it:

    overlay (ps ++ qs) a  =  what `qs` shows at `a`, else what `ps` shows there

`Shows ps a bs` is the same for a run of addresses: what is written, what stays under later pieces
that lie apart, and a row of pieces.

Nothing here mentions a particular memory.
-/
import Mathlib.Data.List.Induction

namespace Yuva.Overlay

variable {β : Type*}

/-- An address and the values from there on. -/
abbrev Piece (β : Type*) := Nat × List β

namespace Piece

/-- The value of a piece at an address. -/
def look (p : Piece β) (a : Nat) : Option β := if p.1 ≤ a then p.2[a - p.1]? else none

theorem look_eq_none {p : Piece β} {a : Nat} : p.look a = none ↔ a < p.1 ∨ p.1 + p.2.length ≤ a := by
  rw [look]
  split
  · rw [List.getElem?_eq_none_iff]
    omega
  · simp only [true_iff]
    omega

theorem look_add {p : Piece β} {i : Nat} : p.look (p.1 + i) = p.2[i]? := by
  rw [look, if_pos (Nat.le_add_right _ _), Nat.add_sub_cancel_left]

/-- A piece of two halves is the first half with the second laid behind it. -/
theorem look_append (at₀ : Nat) (xs ys : List β) (a : Nat) :
    look (at₀, xs ++ ys) a = (look (at₀ + xs.length, ys) a).or (look (at₀, xs) a) := by
  simp only [look]
  by_cases hback : at₀ + xs.length ≤ a
  · rw [if_pos hback, if_pos (by omega), if_pos (by omega), List.getElem?_append_right (by omega),
      List.getElem?_eq_none (l := xs) (by omega), Option.or_none, Nat.sub_add_eq]
  · rw [if_neg hback, Option.none_or]
    split
    · rw [List.getElem?_append_left (by omega)]
    · rfl

end Piece

/-- What the pieces show at an address, the last one on top. -/
def overlay : List (Piece β) → Nat → Option β
  | [], _ => none
  | p :: ps, a => (overlay ps a).or (p.look a)

@[simp] theorem overlay_nil (a : Nat) : overlay ([] : List (Piece β)) a = none := rfl

theorem overlay_cons (p : Piece β) (ps : List (Piece β)) (a : Nat) :
    overlay (p :: ps) a = (overlay ps a).or (p.look a) := rfl

theorem overlay_append (ps qs : List (Piece β)) (a : Nat) :
    overlay (ps ++ qs) a = (overlay qs a).or (overlay ps a) := by
  induction ps with
  | nil => rw [List.nil_append, overlay_nil, Option.or_none]
  | cons p ps ih => rw [List.cons_append, overlay_cons, overlay_cons, ih, Option.or_assoc]

theorem overlay_eq_none {ps : List (Piece β)} {a : Nat} :
    overlay ps a = none ↔ ∀ p ∈ ps, p.look a = none := by
  induction ps with
  | nil => simp
  | cons p ps ih => simp [overlay_cons, Option.or_eq_none_iff, ih, and_comm]

/-- A piece that no later one reaches shows whole. -/
theorem overlay_of_untouched {pre post : List (Piece β)} {p : Piece β} {a : Nat}
    (hin : p.1 ≤ a ∧ a < p.1 + p.2.length) (hpost : ∀ q ∈ post, q.look a = none) :
    overlay (pre ++ p :: post) a = p.look a := by
  obtain ⟨b, hb⟩ := Option.ne_none_iff_exists'.mp (mt Piece.look_eq_none.mp (by omega : ¬(a < p.1 ∨ _ ≤ a)))
  rw [overlay_append, overlay_cons, overlay_eq_none.mpr hpost, Option.none_or, hb, Option.some_or]

/-- Pieces one behind another are the piece of all their values. -/
theorem overlay_consecutive {at₀ : Nat} {xss : List (List β)} {width : Nat}
    (hwidth : ∀ xs ∈ xss, xs.length = width) (a : Nat) :
    overlay (xss.zipIdx.map fun x => (at₀ + x.2 * width, x.1)) a = Piece.look (at₀, xss.flatten) a := by
  induction xss using List.reverseRecOn with
  | nil => simp [Piece.look]
  | append_singleton xss xs ih =>
      have hlen : xss.flatten.length = xss.length * width := by
        rw [List.length_flatten, List.map_congr_left fun ys hys => hwidth ys (List.mem_append_left _ hys),
          List.map_const', List.sum_replicate_nat]
      rw [List.zipIdx_append, List.map_append, overlay_append, ih fun ys hys => hwidth ys (by simp [hys]),
        List.flatten_append, List.flatten_singleton, Piece.look_append, hlen]
      simp [overlay_cons]

/-- A piece that does not reach the `n` addresses from `a` on. -/
def Piece.Apart (p : Piece β) (a n : Nat) : Prop := p.1 + p.2.length ≤ a ∨ a + n ≤ p.1

/-- The pieces show `bs` from `a` on. -/
def Shows (ps : List (Piece β)) (a : Nat) (bs : List β) : Prop :=
  ∀ i b, bs[i]? = some b → overlay ps (a + i) = some b

namespace Shows

variable {ps qs : List (Piece β)} {a : Nat} {bs : List β}

theorem piece (a : Nat) (bs : List β) : Shows [(a, bs)] a bs := by
  intro i b hb
  rw [overlay_cons, overlay_nil, Option.none_or, Piece.look_add, hb]

theorem later (h : Shows qs a bs) : Shows (ps ++ qs) a bs := by
  intro i b hb
  rw [overlay_append, h i b hb, Option.some_or]

theorem kept (h : Shows ps a bs) (hqs : ∀ q ∈ qs, q.Apart a bs.length) : Shows (ps ++ qs) a bs := by
  intro i b hb
  have hi : i < bs.length := (List.getElem?_eq_some_iff.mp hb).1
  have hnone : overlay qs (a + i) = none := overlay_eq_none.mpr fun q hq => Piece.look_eq_none.mpr <| by
    have := hqs q hq
    simp only [Piece.Apart] at this
    omega
  rw [overlay_append, hnone, Option.none_or, h i b hb]

/-- A piece under pieces that lie apart from it. -/
theorem pick (ps : List (Piece β)) {p : Piece β} (hqs : ∀ q ∈ qs, q.Apart p.1 p.2.length) :
    Shows (ps ++ p :: qs) p.1 p.2 := later (kept (piece p.1 p.2 : Shows [p] p.1 p.2) hqs)

theorem cut (h : Shows ps a bs) {k : Nat} {cs : List β} (hcut : ∀ i c, cs[i]? = some c → bs[k + i]? = some c) :
    Shows ps (a + k) cs := by
  intro i c hc
  rw [Nat.add_assoc]
  exact h _ c (hcut i c hc)

/-- A row of pieces of one width. -/
theorem row {g : Nat → List β} {n w : Nat} (hg : ∀ i < n, (g i).length = w) (a : Nat) :
    Shows ((List.range n).map fun i => (a + i * w, g i)) a ((List.range n).flatMap g) := by
  intro i b hb
  have hrow : (List.range n).map (fun i => (a + i * w, g i)) =
      ((List.range n).map g).zipIdx.map fun x => (a + x.2 * w, x.1) :=
    List.ext_getElem (by simp) fun i _ _ => by simp
  rw [hrow, overlay_consecutive (by simpa using hg), Piece.look_add, ← List.flatMap_def, hb]

end Shows

end Yuva.Overlay
