/-
# `Yuva.Mem.Ranking` — the recall score as a sum of normalised components

`recall` adds three components, each placed on `[0, SCALE]` between its least and greatest
value over the candidates.  The source does so in `i64`; here it is shown that nothing wraps
(an activation is a few bits, an importance at most ten), so that each term is the exact
normalisation over the set of candidates and the loop picks the first best of them.

    the loop of a minimum or a maximum     `lo_isLeast`, `hi_isGreatest`
    one term                               `minmax_eq_normalised`
    the whole loop                         `best_spec`
-/
import Yuva.Lib.Select
import Yuva.Mem.Records
import Mathlib.Order.ConditionallyCompleteLattice.Basic
import Mathlib.Data.Int.ConditionallyCompleteOrder
import Mathlib.Algebra.Order.Ring.Int
import Mathlib.Order.Bounds.Basic
import Mathlib.Data.Set.Finite.Lattice

namespace Yuva.Mem

open Yuva.Machine Yuva.Select MemSubstrate

/-! ## Normalisation over a set -/

/-- `c i` between the least and the greatest value of `c` on `E`. -/
noncomputable def normalised (c : Nat → Int) (E : Set Nat) (i : Nat) : Int :=
  if sSup (c '' E) = sInf (c '' E) then 0
  else (c i - sInf (c '' E)) * SCALE / (sSup (c '' E) - sInf (c '' E))

theorem lo_isLeast {vals : List Int} (hne : vals ≠ []) :
    IsLeast {v | v ∈ vals} (vals.foldl (fun lo v => if v < lo then v else lo) (vals.headD 0)) := by
  obtain ⟨v, l, rfl⟩ := List.exists_cons_of_ne_nil hne
  have hb : StrictWeak fun a b : Int => a < b := StrictWeak.of_key (κ := Intᵒᵈ) OrderDual.toDual
  have hmem := select_mem hb v (v :: l)
  have hleast := not_better_select hb v (v :: l)
  refine ⟨?_, fun w hw => not_lt.1 (hleast w (List.mem_cons_of_mem _ hw))⟩
  rcases List.mem_cons.1 hmem with h | h
  · exact List.mem_cons.2 (.inl h)
  · exact h

theorem hi_isGreatest {vals : List Int} (hne : vals ≠ []) :
    IsGreatest {v | v ∈ vals} (vals.foldl (fun hi v => if v > hi then v else hi) (vals.headD 0)) := by
  obtain ⟨v, l, rfl⟩ := List.exists_cons_of_ne_nil hne
  have hb : StrictWeak fun a b : Int => a > b := StrictWeak.of_key id
  have hmem := select_mem hb v (v :: l)
  have hgreatest := not_better_select hb v (v :: l)
  refine ⟨?_, fun w hw => not_lt.1 (hgreatest w (List.mem_cons_of_mem _ hw))⟩
  rcases List.mem_cons.1 hmem with h | h
  · exact List.mem_cons.2 (.inl h)
  · exact h

/-- Of values that fit a few words of bits the code's term is the exact normalisation. -/
theorem minmax_eq_normalised {c : Nat → Int} {cand : List Nat} {E : Set Nat} (hE : ∀ i, i ∈ cand ↔ i ∈ E)
    (hc : ∀ i ∈ cand, -2 ^ 40 ≤ c i ∧ c i ≤ 2 ^ 40) {k : Nat} (hk : k < cand.length) :
    minmax (cand.map c) k = normalised c E cand[k] := by
  have hne : cand.map c ≠ [] := by
    intro hnil
    rw [List.map_eq_nil_iff] at hnil
    rw [hnil] at hk
    exact absurd hk (Nat.not_lt_zero _)
  have himage : {v | v ∈ cand.map c} = c '' E := by
    ext v
    simp only [Set.mem_ofPred_eq, List.mem_map, Set.mem_image, hE]
  have hlo := lo_isLeast hne
  have hhi := hi_isGreatest hne
  rw [himage] at hlo hhi
  rw [minmax, normalised, hlo.csInf_eq, hhi.csSup_eq]
  generalize (cand.map c).foldl (fun lo v => if v < lo then v else lo) ((cand.map c).headD 0) = lo at hlo ⊢
  generalize (cand.map c).foldl (fun hi v => if v > hi then v else hi) ((cand.map c).headD 0) = hi at hhi ⊢
  have hmem : ∀ v ∈ c '' E, -2 ^ 40 ≤ v ∧ v ≤ 2 ^ 40 := by
    rintro v ⟨i, hi, rfl⟩
    exact hc i ((hE i).2 hi)
  have hself : c cand[k] ∈ c '' E := ⟨_, (hE _).1 (List.getElem_mem hk), rfl⟩
  have hget : (cand.map c).getD k 0 = c cand[k] := by
    rw [List.getD_eq_getElem _ _ (by rwa [List.length_map]), List.getElem_map]
  have hbelow := hlo.2 hself
  have habove := hhi.2 hself
  obtain ⟨hlo1, hlo2⟩ := hmem lo hlo.1
  obtain ⟨hhi1, hhi2⟩ := hmem hi hhi.1
  rw [hget]
  split_ifs with hflat
  · rfl
  · rw [wrapI64_eq (z := c cand[k] - lo) (by omega) (by omega), wrapI64_eq (by rw [SCALE]; omega) (by rw [SCALE]; omega),
      wrapI64_eq (by omega) (by omega), Int.tdiv_eq_ediv_of_nonneg (by rw [SCALE]; omega)]

theorem normalised_nonneg {c : Nat → Int} {E : Set Nat} (hE : E.Finite) {i : Nat} (hi : i ∈ E) :
    0 ≤ normalised c E i := by
  have himage := hE.image c
  have hle : sInf (c '' E) ≤ c i := csInf_le himage.bddBelow ⟨i, hi, rfl⟩
  have hge : c i ≤ sSup (c '' E) := le_csSup himage.bddAbove ⟨i, hi, rfl⟩
  rw [normalised]
  split_ifs
  · exact le_rfl
  · exact Int.ediv_nonneg (mul_nonneg (by omega) (by decide)) (by omega)

/-! ## The size of an activation -/

/-- The interpolated part stays within one unit, also where its product wraps. -/
theorem frac_bounds {x ip : Nat} (hip : ip < 64) (hlo : 2 ^ ip ≤ x) (hhi : x < 2 ^ (ip + 1)) :
    -1000 ≤ (wrapI 64 (wrapI 64 (x - 2 ^ ip : Nat) * SCALE)).tdiv (wrapI 64 (2 ^ ip : Nat)) ∧
      (wrapI 64 (wrapI 64 (x - 2 ^ ip : Nat) * SCALE)).tdiv (wrapI 64 (2 ^ ip : Nat)) ≤ 1000 := by
  rw [pow_succ] at hhi
  rcases Nat.lt_or_ge ip 54 with hsmall | hbig
  · have hpow : 2 ^ ip ≤ 2 ^ 53 := Nat.pow_le_pow_right (by decide) (by omega)
    have hpos : 0 < 2 ^ ip := Nat.two_pow_pos ip
    generalize 2 ^ ip = pow at *
    have hprod : wrapI 64 (((x - pow : Nat) : Int) * SCALE) = ((x - pow : Nat) : Int) * SCALE :=
      wrapI64_eq (by rw [SCALE]; omega) (by rw [SCALE]; omega)
    rw [wrapI64_eq (z := ((x - pow : Nat) : Int)) (by omega) (by omega), hprod, wrapI64_eq (by omega) (by omega),
      SCALE, Int.tdiv_eq_ediv_of_nonneg (by omega)]
    have hquot : 0 ≤ ((x - pow : Nat) : Int) * 1000 / pow := Int.ediv_nonneg (by omega) (by omega)
    exact ⟨by omega, Int.ediv_le_of_le_mul (by omega) (by omega)⟩
  · -- The divisor is at least `2 ^ 54` in size, whatever the product wraps to.
    have hden : 2 ^ 54 ≤ (wrapI 64 (2 ^ ip : Nat)).natAbs := by
      have hpow : 2 ^ 54 ≤ 2 ^ ip := Nat.pow_le_pow_right (by decide) hbig
      rcases Nat.lt_or_ge ip 63 with hlt | hge
      · have hpow' : 2 ^ ip ≤ 2 ^ 62 := Nat.pow_le_pow_right (by decide) (by omega)
        rw [wrapI64_eq (by omega) (by omega)]
        omega
      · obtain rfl : ip = 63 := by omega
        decide
    obtain ⟨hmin, hmax⟩ := wrapI64_mem (wrapI 64 (x - 2 ^ ip : Nat) * SCALE)
    generalize wrapI 64 (wrapI 64 (x - 2 ^ ip : Nat) * SCALE) = num at *
    generalize wrapI 64 (2 ^ ip : Nat) = den at *
    have hquot : (num.tdiv den).natAbs ≤ 512 := by
      rw [Int.natAbs_tdiv]
      exact Nat.div_le_of_le_mul (by omega)
    omega

theorem log2Fixed_bounds {x : Nat} (hx : x < 2 ^ 64) : -1000 ≤ log2Fixed x ∧ log2Fixed x ≤ 64000 := by
  rw [log2Fixed]
  split_ifs with hone
  · decide
  have hip : x.log2 < 64 := (Nat.log2_lt (by omega)).2 hx
  have hfrac := frac_bounds hip (Nat.log2_self_le (by omega)) Nat.lt_log2_self
  have hwhole : (x.log2 : Int) * SCALE ≤ 63000 := by
    rw [SCALE]
    omega
  have hnonneg : 0 ≤ (x.log2 : Int) * SCALE := mul_nonneg (Int.natCast_nonneg _) (by decide)
  dsimp only
  omega

theorem lnFixed_bounds {x : Nat} (hx : x < 2 ^ 64) : -2 ^ 17 ≤ lnFixed x ∧ lnFixed x ≤ 2 ^ 17 := by
  have hlog := log2Fixed_bounds hx
  rw [lnFixed, SCALE, LN2_FIXED, Int.tdiv_eq_ediv, show Int.sign 1000 = 1 from rfl]
  split_ifs <;> omega

theorem blaRaw_bounds {count age : Nat} (hcount : count < 2 ^ 32) :
    -2 ^ 18 ≤ blaRaw count age ∧ blaRaw count age ≤ 2 ^ 18 := by
  have hfreq := lnFixed_bounds (show 2 * (count + 1) < 2 ^ 64 by omega)
  have hrec := lnFixed_bounds (x := wrapU 64 (age + 1)) (Nat.mod_lt _ (by decide))
  rw [blaRaw, Int.tdiv_eq_ediv, show Int.sign 2 = 1 from rfl]
  split_ifs <;> omega

theorem bm25Idf_bounds {df nDocs : Nat} : 0 ≤ bm25Idf df nDocs ∧ bm25Idf df nDocs ≤ 2 ^ 18 := by
  have hn := lnFixed_bounds (x := wrapU 64 (2 * max nDocs 1 + 2)) (Nat.mod_lt _ (by decide))
  have hd := lnFixed_bounds (x := wrapU 64 (2 * min (max df 1) (max nDocs 1) + 1)) (Nat.mod_lt _ (by decide))
  rw [bm25Idf]
  omega

/-! ## The three components -/

/-- The counter a retrieval bumps. -/
def MemRecord.counted (r : MemRecord) : Prop := r.count < 2 ^ 32

theorem counted_rule : RecordRule MemRecord.counted where
  invalidate _ _ h := h
  accessed _ r _ := by
    simp only [MemRecord.counted, MemRecord.accessed, satU]
    omega
  linked _ _ h := h
  demote _ h := h
  asDistilled _ h := h
  strengthen _ h := h
  fresh _ _ _ _ _ _ := by
    simp only [MemRecord.counted, MemRecord.fresh]
    omega

theorem counted_reached (ops : List Op) : All MemRecord.counted (reached ops) := all_reached counted_rule ops

namespace MemSubstrate

variable (s : MemSubstrate)

def activation (i : Nat) : Int :=
  blaRaw s.t3.records[i]!.count (subSat s.clock s.t3.records[i]!.tCreated + 1).toNat

def salience (i : Nat) : Int := s.t3.records[i]!.importance

/-- The sum of the three normalised components over the candidates `E`. -/
noncomputable def score (relevance : Int) (E : Set Nat) (i : Nat) : Int :=
  normalised s.activation E i + normalised (fun _ => relevance) E i + normalised s.salience E i

end MemSubstrate

/-- The loop keeps the first index with the greatest value. -/
theorem foldl_argmax (f : Nat → Int) (l : List Nat) (i : Nat) :
    l.foldl (fun (b : Nat × Int) k => if f k > b.2 then (k, f k) else b) (i, f i) =
      (select (fun a b => f b < f a) i l, f (select (fun a b => f b < f a) i l)) := by
  induction l generalizing i with
  | nil => rfl
  | cons k l ih =>
    rw [List.foldl_cons, select_cons]
    dsimp only
    split_ifs with hk
    · exact ih k
    · exact ih i

theorem argmax_range {f : Nat → Int} {n : Nat} (hn : 0 < n) (hf : -2 ^ 63 < f 0) :
    ∃ m, m < n ∧ ((List.range n).foldl (fun (b : Nat × Int) k => if f k > b.2 then (k, f k) else b)
      (0, -2 ^ 63)).1 = m ∧ ∀ k, k < n → f k ≤ f m ∧ (f k = f m → m ≤ k) := by
  have hb : StrictWeak fun a b => f b < f a := StrictWeak.of_key f
  obtain ⟨l, hl⟩ : ∃ l, List.range n = 0 :: l := by
    obtain ⟨m, rfl⟩ := Nat.exists_eq_succ_of_ne_zero hn.ne'
    exact ⟨_, List.range_succ_eq_map⟩
  obtain ⟨pre, post, hsplit, hbest⟩ := select_spec hb 0 l
  have hrange : List.range n = pre ++ select (fun a b => f b < f a) 0 l :: post := hl.trans hsplit
  have hsorted := List.pairwise_lt_range (n := n)
  rw [hrange, List.pairwise_append, List.pairwise_cons] at hsorted
  refine ⟨select (fun a b => f b < f a) 0 l, ?_, ?_, fun k hk => ?_⟩
  · exact List.mem_range.1 (hrange ▸ List.mem_append_right _ List.mem_cons_self)
  · rw [hl, List.foldl_cons, if_pos hf, foldl_argmax]
  · have hmem : k ∈ pre ++ select (fun a b => f b < f a) 0 l :: post := hrange ▸ List.mem_range.2 hk
    rcases List.mem_append.1 hmem with hpre | hrest
    · have hworse := hbest.worse k hpre
      exact ⟨hworse.le, fun heq => absurd heq hworse.ne⟩
    · rcases List.mem_cons.1 hrest with rfl | hpost
      · exact ⟨le_rfl, fun _ => le_rfl⟩
      · exact ⟨not_lt.1 (hbest.notBetter k hpost), fun _ => (hsorted.2.1.1 k hpost).le⟩

theorem record_mem {s : MemSubstrate} {i : Nat} (hi : i < s.t3.records.length) : s.t3.records[i]! ∈ s.t3.records := by
  rw [List.getElem!_eq_getElem?_getD, List.getElem?_eq_getElem hi]
  exact List.getElem_mem _

theorem activation_bounds {s : MemSubstrate} (hcounted : All MemRecord.counted s) {i : Nat}
    (hi : i < s.t3.records.length) : -2 ^ 40 ≤ s.activation i ∧ s.activation i ≤ 2 ^ 40 := by
  have hbla : -2 ^ 18 ≤ blaRaw _ (subSat s.clock s.t3.records[i]!.tCreated + 1).toNat ∧
      blaRaw _ (subSat s.clock s.t3.records[i]!.tCreated + 1).toNat ≤ 2 ^ 18 :=
    blaRaw_bounds (hcounted _ (record_mem hi))
  rw [activation]
  omega

theorem salience_bounds {s : MemSubstrate} (hgraded : All MemRecord.graded s) {i : Nat}
    (hi : i < s.t3.records.length) : -2 ^ 40 ≤ s.salience i ∧ s.salience i ≤ 2 ^ 40 := by
  obtain ⟨hlo, hhi⟩ := hgraded _ (record_mem hi)
  rw [salience]
  omega

/-- The winner of the loop: no candidate scores higher, and none before it as high. -/
theorem best_spec {s : MemSubstrate} (hgraded : All MemRecord.graded s) (hcounted : All MemRecord.counted s)
    {postings cand : List Nat} {E : Set Nat} (hE : ∀ i, i ∈ cand ↔ i ∈ E)
    (hin : ∀ i ∈ cand, i < s.t3.records.length) (hne : cand ≠ []) :
    ∃ (m : Nat) (hm : m < cand.length), s.best postings cand = cand[m] ∧
      ∀ (k : Nat) (hk : k < cand.length),
        s.score (bm25Idf postings.length (max s.t3.numDocs 1)) E cand[k] ≤
          s.score (bm25Idf postings.length (max s.t3.numDocs 1)) E cand[m] ∧
        (s.score (bm25Idf postings.length (max s.t3.numDocs 1)) E cand[k] =
          s.score (bm25Idf postings.length (max s.t3.numDocs 1)) E cand[m] → m ≤ k) := by
  have hidf : 0 ≤ bm25Idf postings.length (max s.t3.numDocs 1) ∧
      bm25Idf postings.length (max s.t3.numDocs 1) ≤ 2 ^ 18 := bm25Idf_bounds
  have hactivation : ∀ i ∈ cand, -2 ^ 40 ≤ s.activation i ∧ s.activation i ≤ 2 ^ 40 :=
    fun i hi => activation_bounds hcounted (hin i hi)
  have hsalience : ∀ i ∈ cand, -2 ^ 40 ≤ s.salience i ∧ s.salience i ≤ 2 ^ 40 :=
    fun i hi => salience_bounds hgraded (hin i hi)
  rw [best]
  generalize bm25Idf postings.length (max s.t3.numDocs 1) = idf at hidf ⊢
  have hterm : ∀ (k : Nat) (hk : k < cand.length),
      minmax (cand.map s.activation) k + minmax (cand.map fun _ => idf) k + minmax (cand.map s.salience) k =
        s.score idf E cand[k] := by
    intro k hk
    rw [minmax_eq_normalised hE hactivation hk, minmax_eq_normalised hE (fun _ _ => by omega) hk,
      minmax_eq_normalised hE hsalience hk, score]
  have hpos : 0 < cand.length := List.length_pos_of_ne_nil hne
  have hfinite : E.Finite := (List.finite_toSet cand).subset fun i hi => (hE i).2 hi
  have hfirst : -2 ^ 63 < minmax (cand.map s.activation) 0 + minmax (cand.map fun _ => idf) 0 +
      minmax (cand.map s.salience) 0 := by
    have hmem := (hE _).1 (List.getElem_mem hpos)
    have h1 := normalised_nonneg (c := s.activation) hfinite hmem
    have h2 := normalised_nonneg (c := fun _ => idf) hfinite hmem
    have h3 := normalised_nonneg (c := s.salience) hfinite hmem
    rw [hterm 0 hpos, score]
    omega
  obtain ⟨m, hm, hfold, hmax⟩ := argmax_range (f := fun k => minmax (cand.map s.activation) k +
    minmax (cand.map fun _ => idf) k + minmax (cand.map s.salience) k) hpos hfirst
  refine ⟨m, hm, ?_, fun k hk => ?_⟩
  · exact (congrArg (fun i => cand[i]!) hfold).trans (getElem!_pos cand m hm)
  · have hle := hmax k hk
    rwa [hterm k hk, hterm m hm] at hle

end Yuva.Mem
