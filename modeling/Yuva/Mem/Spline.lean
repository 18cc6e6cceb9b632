/-
# `Yuva.Mem.Spline` — a policy table that passes its checks keeps the order of the features

`kan_table_is_monotone` and `kan_table_overflow_safe` of `tb-encode/src/kancell.rs` look at the
knots only.  What they are for is the score: a feature of sign `+1` never lowers it as it grows
and a feature of sign `-1` never raises it.

**Proved here.**  Every spline of the table is `Fixed.spline` on the clamped feature, so each
value lies between the two knots around it, and the order of the knots is the order of the
values, within a segment, across segments and past both ends of the grid (`kanScore_ordered`).
No saturating operator is ever taken to its limit: `kanSplineChecked` and `kanScoreChecked` have
`none` there, and never answer it.
-/
import Yuva.Lib.Checked
import Yuva.Lib.Fixed
import Yuva.Mem.Score

namespace Yuva.Mem

open Yuva.Checked Yuva.Fixed Yuva.Machine

def KAN_KNOT_MAX : Int := 8000

/-- `row[k]`. -/
def knotAt (row : Knots) (k : Nat) : Int := (row.toList.getD k 0).toInt

/-- `+1` asks for knots that do not fall, `-1` for knots that do not rise, `0` for nothing. -/
def kanTableIsMonotone (table : KnotTable) (signs : Vector (BitVec 8) KAN_FEATURES) : Bool :=
  (List.finRange KAN_FEATURES).all fun j =>
    let s := (signs.get j).toInt
    let row := table.get j
    (List.range (KAN_KNOTS - 1)).all fun k =>
      let d := knotAt row (k + 1) - knotAt row k
      !(decide (s > 0 ∧ d < 0)) && !(decide (s < 0 ∧ d > 0))

def kanTableOverflowSafe (table : KnotTable) : Bool :=
  (List.finRange KAN_FEATURES).all fun j =>
    let row := table.get j
    (List.range KAN_KNOTS).all fun k =>
      decide (-KAN_KNOT_MAX ≤ knotAt row k ∧ knotAt row k ≤ KAN_KNOT_MAX)

/-- `kan_spline_eval`, with `none` where an operator would saturate or a plain one overflow. -/
def kanSplineChecked (knots : Knots) (x gridLo : Int) (gridStepLog2 : Nat) : Option Int := do
  let step ← signed 32 (2 ^ gridStepLog2)
  let span ← signed 32 (step * (KAN_KNOTS - 1 : Nat))
  let gridHi ← signed 32 (gridLo + span)
  let xc := if x < gridLo then gridLo else if x > gridHi then gridHi else x
  let off ← signed 32 (xc - gridLo)
  let seg := min (off >>> gridStepLog2).toNat (KAN_KNOTS - 2)
  let y0 ← knots.toList[seg]?
  let y1 ← knots.toList[seg + 1]?
  let segOff ← signed 32 (seg * step)
  let segLo ← signed 32 (gridLo + segOff)
  let frac ← signed 32 (xc - segLo)
  let dy ← signed 32 (y1.toInt - y0.toInt)
  let slope ← signed 32 (dy * frac)
  signed 32 (y0.toInt + slope >>> gridStepLog2)

def kanScoreChecked (table : KnotTable) (feats : Feats) (flagTerms bias : Int) : Option Int := do
  let acc ← (List.finRange KAN_FEATURES).foldlM (fun acc j => do
    let y ← kanSplineChecked (table.get j) (feats.get j).toInt GRID_LO GRID_STEP_LOG2
    signed 64 (acc + y)) bias
  let acc ← signed 64 (acc + flagTerms)
  return if acc < DEMOTE_BAND.1 then DEMOTE_BAND.1
    else if acc > DEMOTE_BAND.2 then DEMOTE_BAND.2
    else acc

/-! ## One spline -/

/-- A feature on the grid. -/
def onGrid (x : Int) : Int := max 0 (min x 1024)

theorem onGrid_mono {x y : Int} (h : x ≤ y) : onGrid x ≤ onGrid y := by
  rw [onGrid, onGrid]
  omega

theorem onGrid_mem (x : Int) : 0 ≤ onGrid x ∧ onGrid x ≤ 1024 := by
  rw [onGrid]
  omega

def splineAt (row : Knots) (x : Int) : Int := spline GRID_STEP_LOG2 8 (knotAt row) (onGrid x)

theorem knotAt_mem (row : Knots) (k : Nat) : -2 ^ 15 ≤ knotAt row k ∧ knotAt row k < 2 ^ 15 :=
  ⟨BitVec.le_toInt _, BitVec.toInt_lt⟩

/-- The two knots around a feature, and the value between them. -/
theorem splineAt_between (row : Knots) (x : Int) :
    ∃ seg : Nat, seg < 8 ∧ (seg : Int) * 128 ≤ onGrid x ∧ onGrid x ≤ (seg + 1) * 128 ∧
      min (knotAt row seg) (knotAt row (seg + 1)) ≤ splineAt row x ∧
      splineAt row x ≤ max (knotAt row seg) (knotAt row (seg + 1)) :=
  spline_between (k := 7) (knotAt row) (by decide) (onGrid_mem x).1 (onGrid_mem x).2

theorem splineAt_mem (row : Knots) (x : Int) : -2 ^ 15 ≤ splineAt row x ∧ splineAt row x < 2 ^ 15 := by
  obtain ⟨seg, -, -, -, hlo, hhi⟩ := splineAt_between row x
  have h0 := knotAt_mem row seg
  have h1 := knotAt_mem row (seg + 1)
  omega

/-- The segment a feature falls in: where it is found, how far in the feature is, and the line
over it. -/
structure Segment (row : Knots) (x : Int) (seg : Nat) : Prop where
  lt : seg < 8
  found : min (onGrid x >>> GRID_STEP_LOG2).toNat (KAN_KNOTS - 2) = seg
  frac : 0 ≤ onGrid x - seg * 128 ∧ onGrid x - seg * 128 ≤ 128
  rise : -(2 ^ 16 * 128) ≤ (knotAt row (seg + 1) - knotAt row seg) * (onGrid x - seg * 128) ∧
    (knotAt row (seg + 1) - knotAt row seg) * (onGrid x - seg * 128) ≤ 2 ^ 16 * 128
  line : splineAt row x = knotAt row seg +
    ((knotAt row (seg + 1) - knotAt row seg) * (onGrid x - seg * 128)) >>> GRID_STEP_LOG2

theorem segment_exists (row : Knots) (x : Int) : ∃ seg, Segment row x seg := by
  have hgrid := onGrid_mem x
  obtain ⟨seg, hseg, hmin, hf0, hf1⟩ := segment_spec (k := 7) (n := 8) (c := onGrid x) (by decide) hgrid.1 hgrid.2
  have hpow : (2 : Int) ^ 7 = 128 := rfl
  have h0 := knotAt_mem row seg
  have h1 := knotAt_mem row (seg + 1)
  rw [hpow] at hf0 hf1
  refine ⟨seg, hseg, ?_, ⟨hf0, hf1⟩, ?_, ?_⟩
  · rw [← hmin, Int.shiftRight_eq_div_pow]
    rfl
  · constructor <;> nlinarith only [h0, h1, hf0, hf1]
  · rw [splineAt, spline, show GRID_STEP_LOG2 = 7 from rfl, hmin, Int.shiftRight_eq_div_pow]
    rfl

theorem clamp_eq (x : Int) : (if x < 0 then 0 else if x > 1024 then 1024 else x) = onGrid x := by
  rw [onGrid]
  split_ifs <;> omega

/-- The source's evaluation is the spline of the clamped feature. -/
theorem kanSplineEval_eq (row : Knots) (x : Int) : kanSplineEval row x GRID_LO GRID_STEP_LOG2 = splineAt row x := by
  obtain ⟨seg, h⟩ := segment_exists row x
  have hmem := splineAt_mem row x
  have hgrid := onGrid_mem x
  have h0 := knotAt_mem row seg
  have h1 := knotAt_mem row (seg + 1)
  have hlt := h.lt
  have hfrac := h.frac
  have hrise := h.rise
  have hstep : wrapI 32 (2 ^ GRID_STEP_LOG2) = 128 := by decide
  have hspan : satI 32 (128 * (KAN_KNOTS - 1 : Nat)) = 1024 := by decide
  have hhi : satI 32 (GRID_LO + 1024) = 1024 := by decide
  have hoff : wrapI 32 (onGrid x - 0) = onGrid x := by
    rw [Int.sub_zero, wrapI_of_mem (by omega) (by omega)]
  have hseg0 : satI 32 ((seg : Int) * 128) = seg * 128 := satI_of_mem (by omega) (by omega)
  have hseg1 : satI 32 (0 + (seg : Int) * 128) = seg * 128 := by
    rw [Int.zero_add, hseg0]
  have hin : wrapI 32 (onGrid x - seg * 128) = onGrid x - seg * 128 := wrapI_of_mem (by omega) (by omega)
  have hdy : satI 32 (knotAt row (seg + 1) - knotAt row seg) = knotAt row (seg + 1) - knotAt row seg :=
    satI_of_mem (by omega) (by omega)
  have hslope : satI 32 ((knotAt row (seg + 1) - knotAt row seg) * (onGrid x - seg * 128)) =
      (knotAt row (seg + 1) - knotAt row seg) * (onGrid x - seg * 128) := satI_of_mem (by omega) (by omega)
  rw [kanSplineEval, hstep, hspan, hhi, show GRID_LO = 0 from rfl, clamp_eq, hoff, h.found, hseg0, hseg1, hin, ← knotAt,
    ← knotAt, hdy, hslope, ← h.line]
  exact satI_of_mem (by omega) (by omega)

/-- The same with every word in range. -/
theorem kanSplineChecked_eq (row : Knots) (x : Int) :
    kanSplineChecked row x GRID_LO GRID_STEP_LOG2 = some (splineAt row x) := by
  obtain ⟨seg, h⟩ := segment_exists row x
  have hmem := splineAt_mem row x
  have hgrid := onGrid_mem x
  have h0 := knotAt_mem row seg
  have h1 := knotAt_mem row (seg + 1)
  have hlt := h.lt
  have hfrac := h.frac
  have hrise := h.rise
  have hget : ∀ k < 9, row.toList[k]? = some (row.toList.getD k 0) :=
    fun k hk => getElem?_of_lt (by rw [Vector.length_toList]; exact hk) 0
  have hhi : GRID_LO + 2 ^ GRID_STEP_LOG2 * ((KAN_KNOTS - 1 : Nat) : Int) = 1024 := rfl
  rw [kanSplineChecked, signed_eq (by decide) (by decide), some_bind, signed_eq (by decide) (by decide), some_bind, hhi,
    signed_eq (by decide) (by decide), some_bind, show GRID_LO = 0 from rfl, clamp_eq]
  dsimp only
  rw [Int.sub_zero, signed_eq (by omega) (by omega), some_bind, h.found, hget seg (by omega), some_bind,
    hget (seg + 1) (by omega), some_bind, ← knotAt, ← knotAt, show (2 : Int) ^ GRID_STEP_LOG2 = 128 from rfl,
    signed_eq (by omega) (by omega), some_bind, Int.zero_add, signed_eq (by omega) (by omega), some_bind,
    signed_eq (by omega) (by omega), some_bind, signed_eq (by omega) (by omega), some_bind,
    signed_eq (by omega) (by omega), some_bind, ← h.line]
  exact signed_eq (by omega) (by omega)

/-! ## The score -/

/-- What a feature adds. -/
def term (table : KnotTable) (feats : Feats) (j : Fin KAN_FEATURES) : Int :=
  splineAt (table.get j) (feats.get j).toInt

def terms (table : KnotTable) (feats : Feats) : Int := ((List.finRange KAN_FEATURES).map (term table feats)).sum

/-- The final clamp. -/
def band (acc : Int) : Int :=
  if acc < DEMOTE_BAND.1 then DEMOTE_BAND.1 else if acc > DEMOTE_BAND.2 then DEMOTE_BAND.2 else acc

theorem band_mono {a b : Int} (h : a ≤ b) : band a ≤ band b := by
  have hband : DEMOTE_BAND.1 ≤ DEMOTE_BAND.2 := by decide
  rw [band, band]
  split_ifs <;> omega

/-- The accumulator stays far inside its word over any few features. -/
theorem fold_terms (table : KnotTable) (feats : Feats) {js : List (Fin KAN_FEATURES)} {a : Int}
    (ha : -2 ^ 62 ≤ a - js.length * 2 ^ 15 ∧ a + js.length * 2 ^ 15 < 2 ^ 62) :
    js.foldl (fun acc j => satI 64 (acc + kanSplineEval table[j] feats[j].toInt GRID_LO GRID_STEP_LOG2)) a =
        a + (js.map (term table feats)).sum ∧
      js.foldlM (fun acc j => do
        let y ← kanSplineChecked (table.get j) (feats.get j).toInt GRID_LO GRID_STEP_LOG2
        signed 64 (acc + y)) a = some (a + (js.map (term table feats)).sum) := by
  induction js generalizing a with
  | nil =>
      rw [List.map_nil, List.sum_nil, Int.add_zero]
      exact ⟨rfl, rfl⟩
  | cons j js ih =>
      have hmem := splineAt_mem (table.get j) (feats.get j).toInt
      rw [← term] at hmem
      rw [List.length_cons] at ha
      obtain ⟨hfold, hrun⟩ := ih (a := a + term table feats j) (by omega)
      rw [List.map_cons, List.sum_cons, List.foldl_cons, List.foldlM_cons, ← Int.add_assoc, ← hfold]
      constructor
      · have hone : satI 64 (a + kanSplineEval table[j] feats[j].toInt GRID_LO GRID_STEP_LOG2) =
            a + term table feats j := by
          rw [kanSplineEval_eq]
          exact satI_of_mem (by show _ ≤ a + term table feats j; omega) (by show a + term table feats j < _; omega)
        rw [hone]
      · rw [hfold, ← hrun, kanSplineChecked_eq, some_bind, ← term, signed_eq (by omega) (by omega), some_bind]

theorem terms_mem (table : KnotTable) (feats : Feats) : -2 ^ 17 ≤ terms table feats ∧ terms table feats ≤ 2 ^ 17 := by
  have hbound : ∀ js : List (Fin KAN_FEATURES), -(js.length * 2 ^ 15) ≤ (js.map (term table feats)).sum ∧
      (js.map (term table feats)).sum ≤ js.length * 2 ^ 15 := by
    intro js
    induction js with
    | nil => exact ⟨le_refl 0, le_refl 0⟩
    | cons j js ih =>
        have hmem := splineAt_mem (table.get j) (feats.get j).toInt
        rw [← term] at hmem
        rw [List.map_cons, List.sum_cons, List.length_cons]
        omega
  have hall := hbound (List.finRange KAN_FEATURES)
  rw [List.length_finRange, ← terms, KAN_FEATURES] at hall
  omega

theorem kanScore_eq (table : KnotTable) (feats : Feats) (flagTerms bias : BitVec 32) :
    kanScore table feats flagTerms.toInt bias.toInt = band (bias.toInt + terms table feats + flagTerms.toInt) ∧
      kanScoreChecked table feats flagTerms.toInt bias.toInt =
        some (kanScore table feats flagTerms.toInt bias.toInt) := by
  have hflag : -2 ^ 31 ≤ flagTerms.toInt ∧ flagTerms.toInt < 2 ^ 31 := ⟨BitVec.le_toInt _, BitVec.toInt_lt⟩
  have hbias : -2 ^ 31 ≤ bias.toInt ∧ bias.toInt < 2 ^ 31 := ⟨BitVec.le_toInt _, BitVec.toInt_lt⟩
  have hterms := terms_mem table feats
  have hroom : -2 ^ 62 ≤ bias.toInt - (List.finRange KAN_FEATURES).length * 2 ^ 15 ∧
      bias.toInt + (List.finRange KAN_FEATURES).length * 2 ^ 15 < 2 ^ 62 := by
    rw [List.length_finRange, KAN_FEATURES]
    omega
  obtain ⟨hfold, hrun⟩ := fold_terms table feats hroom
  rw [← terms] at hfold hrun
  have hscore : kanScore table feats flagTerms.toInt bias.toInt =
      band (bias.toInt + terms table feats + flagTerms.toInt) := by
    rw [kanScore, hfold, satI_of_mem (by omega) (by omega)]
    rfl
  refine ⟨hscore, ?_⟩
  rw [hscore, kanScoreChecked, hrun, some_bind, signed_eq (by omega) (by omega), some_bind]
  rfl

/-! ## The validators -/

theorem rises_of_monotone {table : KnotTable} {signs : Vector (BitVec 8) KAN_FEATURES}
    (h : kanTableIsMonotone table signs = true) {j : Fin KAN_FEATURES} (hs : 0 < (signs.get j).toInt) :
    ∀ k < 8, knotAt (table.get j) k ≤ knotAt (table.get j) (k + 1) := by
  intro k hk
  have hknot := List.all_eq_true.mp (List.all_eq_true.mp h j (List.mem_finRange j)) k (List.mem_range.mpr hk)
  simp only [Bool.and_eq_true, Bool.not_eq_true', decide_eq_false_iff_not] at hknot
  omega

theorem falls_of_monotone {table : KnotTable} {signs : Vector (BitVec 8) KAN_FEATURES}
    (h : kanTableIsMonotone table signs = true) {j : Fin KAN_FEATURES} (hs : (signs.get j).toInt < 0) :
    ∀ k < 8, knotAt (table.get j) (k + 1) ≤ knotAt (table.get j) k := by
  intro k hk
  have hknot := List.all_eq_true.mp (List.all_eq_true.mp h j (List.mem_finRange j)) k (List.mem_range.mpr hk)
  simp only [Bool.and_eq_true, Bool.not_eq_true', decide_eq_false_iff_not] at hknot
  omega

theorem knot_of_safe {table : KnotTable} (h : kanTableOverflowSafe table = true) (j : Fin KAN_FEATURES) {k : Nat}
    (hk : k < 9) : -KAN_KNOT_MAX ≤ knotAt (table.get j) k ∧ knotAt (table.get j) k ≤ KAN_KNOT_MAX :=
  of_decide_eq_true (List.all_eq_true.mp (List.all_eq_true.mp h j (List.mem_finRange j)) k (List.mem_range.mpr hk))

/-- Changing one feature changes the score as it changes that feature's term. -/
theorem kanScore_le {table : KnotTable} {x y : Feats} {f : Fin KAN_FEATURES}
    (hother : ∀ j, j ≠ f → x.get j = y.get j) (hterm : term table x f ≤ term table y f) (flagTerms bias : BitVec 32) :
    kanScore table x flagTerms.toInt bias.toInt ≤ kanScore table y flagTerms.toInt bias.toInt := by
  have hterms : terms table x ≤ terms table y := by
    refine List.sum_le_sum fun j _ => ?_
    by_cases hj : j = f
    · rw [hj]
      exact hterm
    · rw [term, term, hother j hj]
  rw [(kanScore_eq table x flagTerms bias).1, (kanScore_eq table y flagTerms bias).1]
  exact band_mono (by omega)

/-- The score follows the sign of the one feature that changes; every spline stays between the
two knots around its feature, below the bound of the headroom check, and every word in range. -/
theorem kanScore_ordered (table : KnotTable) (signs : Vector (BitVec 8) KAN_FEATURES)
    (hmono : kanTableIsMonotone table signs = true) (hsafe : kanTableOverflowSafe table = true)
    (flagTerms bias : BitVec 32) (x y : Feats) (f : Fin KAN_FEATURES)
    (hother : ∀ j, j ≠ f → x.get j = y.get j) (hle : (x.get f).toInt ≤ (y.get f).toInt) :
    (0 < (signs.get f).toInt →
      kanScore table x flagTerms.toInt bias.toInt ≤ kanScore table y flagTerms.toInt bias.toInt) ∧
    ((signs.get f).toInt < 0 →
      kanScore table y flagTerms.toInt bias.toInt ≤ kanScore table x flagTerms.toInt bias.toInt) ∧
    (∀ (j : Fin KAN_FEATURES) (v : BitVec 32), ∃ seg : Nat, seg < 8 ∧
      (seg : Int) * 128 ≤ onGrid v.toInt ∧ onGrid v.toInt ≤ (seg + 1) * 128 ∧
      min (knotAt (table.get j) seg) (knotAt (table.get j) (seg + 1)) ≤
        kanSplineEval (table.get j) v.toInt GRID_LO GRID_STEP_LOG2 ∧
      kanSplineEval (table.get j) v.toInt GRID_LO GRID_STEP_LOG2 ≤
        max (knotAt (table.get j) seg) (knotAt (table.get j) (seg + 1)) ∧
      -KAN_KNOT_MAX ≤ kanSplineEval (table.get j) v.toInt GRID_LO GRID_STEP_LOG2 ∧
      kanSplineEval (table.get j) v.toInt GRID_LO GRID_STEP_LOG2 ≤ KAN_KNOT_MAX) ∧
    (∀ feats : Feats, kanScoreChecked table feats flagTerms.toInt bias.toInt =
      some (kanScore table feats flagTerms.toInt bias.toInt)) := by
  have hgrid := onGrid_mono hle
  have hx := onGrid_mem (x.get f).toInt
  have hy := onGrid_mem (y.get f).toInt
  refine ⟨?_, ?_, ?_, fun feats => (kanScore_eq table feats flagTerms bias).2⟩
  · intro hs
    exact kanScore_le hother
      (spline_mono (rises_of_monotone hmono hs) (by decide) hx.1 hgrid hy.2) flagTerms bias
  · intro hs
    exact kanScore_le (fun j hj => (hother j hj).symm)
      (spline_anti (falls_of_monotone hmono hs) (by decide) hx.1 hgrid hy.2) flagTerms bias
  · intro j v
    obtain ⟨seg, hseg, hlo, hhi, hmin, hmax⟩ := splineAt_between (table.get j) v.toInt
    have h0 := knot_of_safe hsafe j (k := seg) (by omega)
    have h1 := knot_of_safe hsafe j (k := seg + 1) (by omega)
    rw [kanSplineEval_eq]
    exact ⟨seg, hseg, hlo, hhi, hmin, hmax, by omega, by omega⟩

-- The table the kernel ships: recency falls, frequency rises, size falls.
theorem kanScore_ordered_shipped :
    kanScore KAN_TABLE #v[0, 640, 0, 0] 0 0 ≤ kanScore KAN_TABLE #v[0, 700, 0, 0] 0 0 :=
  (kanScore_ordered KAN_TABLE #v[-1, 1, -1, 0] (by decide) (by decide) 0 0 #v[0, 640, 0, 0]
    #v[0, 700, 0, 0] (Fin.mk 1 (by decide)) (by decide) (by decide)).1 (by decide)

end Yuva.Mem
