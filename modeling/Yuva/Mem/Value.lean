/-
# `Yuva.Mem.Value` — the value bounds of the activation gate

Below the value of the learned policy the gate puts a weighted mean of two floors: the
Bernstein bound for the decisions that were explored, and for the others the average over
the grid of the floors of its cells.

The average is a floor under the mean of unexplored rewards spread evenly over the grid.
Nothing spreads them so: they may all fall into the cell with the lowest floor.  The bound
then holds only as far as the rounding of the weighted mean, or the clamp at `Y_HI`, has
given back what the average adds (`FloorsCarry`).  A single explored reward is a second
way to fail: its bound is not stopped at `Y_LO`, as the bound of several is, while the value
is.

The bound over the value of the heuristic has neither flaw (`total_le_upper`).
-/
import Yuva.Mem.Bakeoff
import Mathlib.Algebra.BigOperators.Fin

namespace Yuva.Mem.Bakeoff

open Yuva.Machine

/-! ## The range of the parts -/

theorem ebLowerBound_mem (sum sumSq : Int) (n : Nat) (range : Int) (deltaNum deltaDen : Nat) {lo : Int}
    (hlo : -2 ^ 63 ≤ lo ∧ lo < 2 ^ 63) :
    -2 ^ 63 ≤ ebLowerBound sum sumSq n range deltaNum deltaDen lo ∧
      ebLowerBound sum sumSq n range deltaNum deltaDen lo < 2 ^ 63 := by
  rw [ebLowerBound]
  dsimp only
  split_ifs
  · exact hlo
  · exact satI_mem 64 _
  · exact ⟨hlo.1.trans (le_max_right _ _), max_lt (satI_mem 64 _).2 hlo.2⟩

theorem nearestAnchor_mem (grid : Grid) (c : Fin GRID_CELLS) :
    ∀ b ∈ nearestAnchor grid c, -2 ^ 63 ≤ b ∧ b < 2 ^ 63 := by
  rw [nearestAnchor]
  refine List.foldlRecOn (motive := fun best => ∀ b ∈ best, -2 ^ 63 ≤ b ∧ b < 2 ^ 63) _ _ (by simp) ?_
  intro best hbest a _
  cases grid[a] with
  | none => exact hbest
  | some r =>
    cases best with
    | none => exact fun b hb => Option.some.inj hb ▸ satI_mem 64 _
    | some b' =>
      dsimp only
      split_ifs
      · exact hbest
      · exact fun b hb => Option.some.inj hb ▸ satI_mem 64 _

theorem cellFloor_mem (grid : Grid) (c : Fin GRID_CELLS) :
    -2 ^ 63 ≤ cellFloor grid c ∧ cellFloor grid c < 2 ^ 63 := by
  have hlo : -2 ^ 63 ≤ Y_LO ∧ Y_LO < 2 ^ 63 := by decide
  rw [cellFloor]
  split
  · exact ⟨BitVec.le_toInt _, BitVec.toInt_lt⟩
  · cases h : nearestAnchor grid c with
    | none => exact ⟨hlo.1.trans (le_max_right _ _), max_lt hlo.2 hlo.2⟩
    | some b =>
      have hb := nearestAnchor_mem grid c b h
      exact ⟨hb.1.trans (le_max_left _ _), max_lt hb.2 hlo.2⟩

/-- A sum of a few words does not leave `i128`. -/
theorem foldl_sat128 {ι : Type} {f : ι → Int} (hf : ∀ i, -2 ^ 63 ≤ f i ∧ f i < 2 ^ 63) :
    ∀ (l : List ι) (acc : Int), -2 ^ 126 ≤ acc - l.length * 2 ^ 63 → acc + l.length * 2 ^ 63 ≤ 2 ^ 126 →
      l.foldl (fun acc i => satI 128 (acc + f i)) acc = acc + (l.map f).sum
  | [], acc, _, _ => by rw [List.foldl_nil, List.map_nil, List.sum_nil, add_zero]
  | i :: l, acc, hlo, hhi => by
    have hi := hf i
    rw [List.length_cons] at hlo hhi
    rw [List.foldl_cons, sat128_eq (by omega) (by omega), foldl_sat128 hf l _ (by omega) (by omega),
      List.map_cons, List.sum_cons, add_assoc]

/-- The average of the floors, rounded down. -/
def gridAverage (grid : Grid) : Int := (∑ c, cellFloor grid c) / GRID_CELLS

theorem gridAverage_mem (grid : Grid) : -2 ^ 63 ≤ gridAverage grid ∧ gridAverage grid < 2 ^ 63 := by
  have hlo : ∑ _c : Fin GRID_CELLS, (-2 ^ 63 : Int) ≤ ∑ c, cellFloor grid c :=
    Finset.sum_le_sum fun c _ => (cellFloor_mem grid c).1
  have hhi : ∑ c, cellFloor grid c ≤ ∑ _c : Fin GRID_CELLS, (2 ^ 63 - 1 : Int) :=
    Finset.sum_le_sum fun c _ => by have := (cellFloor_mem grid c).2; omega
  rw [Finset.sum_const, Finset.card_univ, Fintype.card_fin, nsmul_eq_mul] at hlo hhi
  rw [gridAverage]
  generalize ∑ c, cellFloor grid c = total at hlo hhi
  simp only [GRID_CELLS] at *
  omega

theorem smoothnessFloorMean_eq (grid : Grid) : smoothnessFloorMean grid = gridAverage grid := by
  have hmem := gridAverage_mem grid
  have htotal := foldl_sat128 (cellFloor_mem grid) (List.finRange GRID_CELLS) 0
    (by rw [List.length_finRange]; decide) (by rw [List.length_finRange]; decide)
  rw [zero_add, ← Fin.sum_univ_def] at htotal
  rw [smoothnessFloorMean, htotal, floorDivI128_ediv _ (by decide)]
  exact clampI128ToI64_eq hmem.1 hmem.2

/-! ## The bound under the learned policy -/

/-- What the bound is computed from: the explored rewards by their sums, how many of the
decisions they are, and the grid. -/
structure Evidence where
  overlapSum : BitVec 64
  overlapSumSq : BitVec 128
  nOverlap : BitVec 32
  nTotal : BitVec 32
  grid : Grid
  deltaNum : BitVec 32
  deltaDen : BitVec 32
  overlap_le : nOverlap.toNat ≤ nTotal.toNat

namespace Evidence

variable (E : Evidence)

/-- The bound under the mean of the explored rewards. -/
def overlapLb : Int :=
  ebLowerBound E.overlapSum.toInt E.overlapSumSq.toInt E.nOverlap.toNat (Y_HI - Y_LO)
    E.deltaNum.toNat E.deltaDen.toNat Y_LO

/-- The decisions that were not explored. -/
def nNoOverlap : Nat := E.nTotal.toNat - E.nOverlap.toNat

def lower : Int :=
  valueLowerBound E.overlapSum.toInt E.overlapSumSq.toInt E.nOverlap.toNat E.nTotal.toNat E.grid
    E.deltaNum.toNat E.deltaDen.toNat

/-- An unexplored decision: the cell it falls into and a reward the floor of the cell admits. -/
structure Decision where
  cell : Fin GRID_CELLS
  reward : Int
  lo_le : Y_LO ≤ reward
  le_hi : reward ≤ Y_HI
  floor_le : cellFloor E.grid cell ≤ reward

/-- Whatever the explored rewards total above their bound and wherever the other decisions
fall, the value is no less than the bound. -/
def Sound : Prop :=
  ∀ T : Int, E.nOverlap.toNat * E.overlapLb ≤ T →
    ∀ ds : List E.Decision, ds.length = E.nNoOverlap →
      E.nTotal.toNat * E.lower ≤ T + (ds.map Decision.reward).sum

/-- The weighted sum of the two floors. -/
def weighted : Int := E.nOverlap.toNat * E.overlapLb + E.nNoOverlap * gridAverage E.grid

/-- The least total when every unexplored decision earns `r`. -/
def leastTotal (r : Int) : Int := E.nOverlap.toNat * E.overlapLb + E.nNoOverlap * r

/-- A total the value cannot pass: it is one of band rewards, and what the rounding drops or
the clamp cuts off makes up for the average. -/
def Carries (total : Int) : Prop :=
  E.nTotal.toNat * Y_LO ≤ total ∧
    (E.nTotal.toNat * Y_HI ≤ total ∨ E.weighted - E.weighted % E.nTotal.toNat ≤ total)

/-- The average carries the total of every cell the unexplored decisions may share. -/
def FloorsCarry : Prop :=
  (E.nNoOverlap = 0 → E.Carries (E.leastTotal 0)) ∧
    ∀ c, cellFloor E.grid c ≤ Y_HI → E.Carries (E.leastTotal (max Y_LO (cellFloor E.grid c)))

theorem overlapLb_mem : -2 ^ 63 ≤ E.overlapLb ∧ E.overlapLb < 2 ^ 63 :=
  ebLowerBound_mem _ _ _ _ _ _ (by decide)

theorem split : E.nOverlap.toNat + E.nNoOverlap = E.nTotal.toNat := by
  have := E.overlap_le
  rw [nNoOverlap]
  omega

/-- A share of a word, between the least and the greatest it can be. -/
theorem share_mem {a : Int} (ha : -2 ^ 63 ≤ a ∧ a < 2 ^ 63) (n : Nat) :
    n * -2 ^ 63 ≤ a * n ∧ a * n ≤ n * (2 ^ 63 - 1) := by
  have hn : 0 ≤ (n : Int) := Int.natCast_nonneg n
  exact ⟨by rw [mul_comm]; exact mul_le_mul_of_nonneg_right ha.1 hn, by
    rw [mul_comm]; exact mul_le_mul_of_nonneg_left (by omega) hn⟩

theorem lower_eq (hpos : 0 < E.nTotal.toNat) :
    E.lower = max Y_LO (min (E.weighted / E.nTotal.toNat) Y_HI) := by
  have hsplit := E.split
  have hn := E.nTotal.isLt
  obtain ⟨holo, hohi⟩ := share_mem E.overlapLb_mem E.nOverlap.toNat
  obtain ⟨hnlo, hnhi⟩ := share_mem (gridAverage_mem E.grid) E.nNoOverlap
  have hrange : satI 64 (Y_HI - Y_LO) = Y_HI - Y_LO := by decide
  have hweighted : E.weighted = E.overlapLb * E.nOverlap.toNat + gridAverage E.grid * E.nNoOverlap := by
    rw [weighted, mul_comm, mul_comm (E.nNoOverlap : Int)]
  rw [lower, valueLowerBound, if_neg (by omega)]
  simp only [hrange, smoothnessFloorMean_eq]
  rw [← overlapLb, ← nNoOverlap, sat128_eq (z := E.overlapLb * _) (by omega) (by omega),
    sat128_eq (z := gridAverage E.grid * _) (by omega) (by omega), ← hweighted, sat128_eq (by omega) (by omega),
    floorDivI128_ediv _ (by omega)]
  have hlo : -2 ^ 63 ≤ E.weighted / E.nTotal.toNat := Int.le_ediv_of_mul_le (by omega) (by omega)
  have hhi : E.weighted / E.nTotal.toNat < 2 ^ 63 := Int.ediv_lt_of_lt_mul (by omega) (by omega)
  rw [clampI128ToI64_eq hlo hhi]

/-- The clamped mean stays under a total exactly when the total carries it. -/
theorem mul_lower_le_iff (total : Int) : E.nTotal.toNat * E.lower ≤ total ↔ E.Carries total := by
  rcases Nat.eq_zero_or_pos E.nTotal.toNat with hzero | hpos
  · rw [Carries, hzero, Nat.cast_zero, Int.emod_zero]
    omega
  have hn : (0 : Int) < E.nTotal.toNat := by exact_mod_cast hpos
  have hdiv : E.weighted - E.weighted % E.nTotal.toNat = E.nTotal.toNat * (E.weighted / E.nTotal.toNat) := by
    have := Int.mul_ediv_add_emod E.weighted E.nTotal.toNat
    omega
  rw [E.lower_eq hpos, Carries, hdiv, mul_max_of_nonneg _ _ hn.le, mul_min_of_nonneg _ _ hn.le,
    max_le_iff, min_le_iff, or_comm]

/-- Every unexplored decision at the lowest reward one cell admits. -/
def allIn (c : Fin GRID_CELLS) (hc : cellFloor E.grid c ≤ Y_HI) : List E.Decision :=
  List.replicate E.nNoOverlap
    ⟨c, max Y_LO (cellFloor E.grid c), le_max_left _ _, max_le (by decide) hc, le_max_right _ _⟩

theorem sum_allIn (c : Fin GRID_CELLS) (hc : cellFloor E.grid c ≤ Y_HI) :
    ((E.allIn c hc).map Decision.reward).sum = E.nNoOverlap * max Y_LO (cellFloor E.grid c) := by
  rw [allIn, List.map_replicate, List.sum_replicate, nsmul_eq_mul]

/-- Some cell admits no more than the decisions earn on average. -/
theorem exists_cell_le {ds : List E.Decision} (hne : ds ≠ []) :
    ∃ c, cellFloor E.grid c ≤ Y_HI ∧
      ds.length * max Y_LO (cellFloor E.grid c) ≤ (ds.map Decision.reward).sum := by
  have hsum : (ds.map fun d => (ds.length : Int) * d.reward).sum ≤
      (ds.map fun _ => (ds.map Decision.reward).sum).sum := by
    rw [List.sum_map_mul_left, List.map_const', List.sum_replicate, nsmul_eq_mul]
  obtain ⟨d, -, hd⟩ := List.exists_le_of_sum_le hne _ _ hsum
  refine ⟨d.cell, d.floor_le.trans d.le_hi, le_trans ?_ hd⟩
  exact mul_le_mul_of_nonneg_left (max_le d.lo_le d.floor_le) (Int.natCast_nonneg _)

theorem floorsCarry_of_sound (hsound : E.Sound) : E.FloorsCarry := by
  refine ⟨fun hzero => ?_, fun c hc => ?_⟩
  · have h := hsound _ le_rfl [] hzero.symm
    rw [List.map_nil, List.sum_nil] at h
    rwa [← mul_lower_le_iff, leastTotal, mul_zero]
  · have h := hsound _ le_rfl (E.allIn c hc) List.length_replicate
    rwa [sum_allIn, ← leastTotal, mul_lower_le_iff] at h

theorem sound_of_floorsCarry (hcarry : E.FloorsCarry) : E.Sound := by
  obtain ⟨hnone, hcells⟩ := hcarry
  intro T hT ds hlen
  rcases eq_or_ne ds [] with rfl | hne
  · have h := (E.mul_lower_le_iff _).2 (hnone hlen.symm)
    rw [leastTotal, mul_zero] at h
    rw [List.map_nil, List.sum_nil]
    omega
  · obtain ⟨c, hc, hle⟩ := E.exists_cell_le hne
    have h := (E.mul_lower_le_iff _).2 (hcells c hc)
    rw [leastTotal, ← hlen] at h
    omega

/-- The bound is sound exactly when the average carries the lowest cell the unexplored
decisions may fall into. -/
theorem sound_iff_floorsCarry : E.Sound ↔ E.FloorsCarry :=
  ⟨E.floorsCarry_of_sound, E.sound_of_floorsCarry⟩

/-- One anchor at the top of the band, in the first cell; one decision, in the last. -/
def farCell : Evidence where
  overlapSum := 0
  overlapSumSq := 0
  nOverlap := 0
  nTotal := 1
  grid := #v[some 34000, none, none, none, none, none, none, none, none]
  deltaNum := 1
  deltaDen := 20
  overlap_le := by decide

theorem farCell_lower : farCell.lower = 33744 := by decide +kernel

theorem farCell_floor : cellFloor farCell.grid (Fin.last 8) = 33488 := by decide

theorem not_forall_sound : ¬ ∀ E : Evidence, E.Sound := by
  intro hall
  have h := hall farCell 0 (by decide)
    [⟨Fin.last 8, 33488, by decide, by decide, farCell_floor.le⟩] rfl
  rw [farCell_lower] at h
  exact absurd h (by decide)

end Evidence

/-! ## The bound over the heuristic -/

theorem sum_le_length_mul {l : List Int} {b : Int} (h : ∀ r ∈ l, r ≤ b) : l.sum ≤ l.length * b := by
  have hle := List.sum_le_card_nsmul l b h
  rwa [nsmul_eq_mul] at hle

theorem length_mul_le_sum {l : List Int} {b : Int} (h : ∀ r ∈ l, b ≤ r) : l.length * b ≤ l.sum := by
  have hle := List.card_nsmul_le_sum l b h
  rwa [nsmul_eq_mul] at hle

/-- The heuristic's decisions: those whose outcome is known and the others. -/
structure Outcomes where
  resolved : List Int
  unresolved : List Int
  resolved_mem : ∀ r ∈ resolved, Y_LO ≤ r ∧ r ≤ Y_HI
  unresolved_mem : ∀ r ∈ unresolved, Y_LO ≤ r ∧ r ≤ Y_HI
  length_lt : resolved.length + unresolved.length < 2 ^ 32

namespace Outcomes

variable (O : Outcomes)

def nTotal : Nat := O.resolved.length + O.unresolved.length

def total : Int := O.resolved.sum + O.unresolved.sum

def upper : Int := valueUpperHeuristic O.resolved.sum O.resolved.length O.nTotal

/-- The mean of the known outcomes, rounded up, lies in the band. -/
theorem ceil_resolved (hne : O.resolved.length ≠ 0) :
    clampI128ToI64 (ceilDivI128 O.resolved.sum O.resolved.length) = -(-O.resolved.sum / O.resolved.length) ∧
      Y_LO ≤ -(-O.resolved.sum / O.resolved.length) ∧ -(-O.resolved.sum / O.resolved.length) ≤ Y_HI ∧
      O.resolved.sum ≤ -(-O.resolved.sum / O.resolved.length) * O.resolved.length := by
  have hn : (0 : Int) < O.resolved.length := by omega
  have hhi := sum_le_length_mul fun r hr => (O.resolved_mem r hr).2
  have hlo := length_mul_le_sum fun r hr => (O.resolved_mem r hr).1
  have hfloor := Int.ediv_mul_le (-O.resolved.sum) hn.ne'
  have habove : Y_LO ≤ -(-O.resolved.sum / O.resolved.length) := by
    have : -O.resolved.sum / O.resolved.length ≤ -Y_LO := Int.ediv_le_of_le_mul hn (by linarith)
    omega
  have hbelow : -(-O.resolved.sum / O.resolved.length) ≤ Y_HI := by
    have : -Y_HI ≤ -O.resolved.sum / O.resolved.length := Int.le_ediv_of_mul_le hn (by linarith)
    omega
  have hband : Y_LO = -34000 ∧ Y_HI = 34000 := ⟨rfl, rfl⟩
  refine ⟨?_, habove, hbelow, by linarith⟩
  rw [ceilDivI128_ediv _ hn, clampI128ToI64_eq (by omega) (by omega)]

/-- Known outcomes count as they are and the others as the best: the mean is never above. -/
theorem total_le_upper : O.total ≤ O.nTotal * O.upper := by
  have hlen := O.length_lt
  have hhi := sum_le_length_mul fun r hr => (O.resolved_mem r hr).2
  have hun := sum_le_length_mul fun r hr => (O.unresolved_mem r hr).2
  have hband : Y_LO = -34000 ∧ Y_HI = 34000 := ⟨rfl, rfl⟩
  have hmean : ∃ m, (if O.resolved.length = 0 then Y_HI
      else clampI128ToI64 (ceilDivI128 O.resolved.sum O.resolved.length)) = m ∧
      Y_LO ≤ m ∧ m ≤ Y_HI ∧ O.resolved.sum ≤ m * O.resolved.length := by
    split_ifs with hnone
    · exact ⟨_, rfl, by decide, le_rfl, by rw [mul_comm]; exact hhi⟩
    · exact ⟨_, O.ceil_resolved hnone⟩
  obtain ⟨m, hm, hmlo, hmhi, hsum⟩ := hmean
  have hmul : Y_LO * O.resolved.length ≤ m * O.resolved.length ∧ m * O.resolved.length ≤ Y_HI * O.resolved.length :=
    ⟨by gcongr, by gcongr⟩
  rw [total, upper, valueUpperHeuristic, nTotal, Nat.add_sub_cancel_left]
  simp only [hm]
  generalize m * O.resolved.length = known at hmul hsum
  simp only [hband.1, hband.2] at hhi hun hmul ⊢
  split_ifs with hzero
  · omega
  rw [sat128_eq (z := known) (by omega) (by omega), sat128_eq (z := 34000 * _) (by omega) (by omega),
    sat128_eq (by omega) (by omega), ceilDivI128_ediv _ (by omega)]
  have hn : (0 : Int) < (O.resolved.length + O.unresolved.length : Nat) := by omega
  have hfloor := Int.ediv_mul_le (-(known + 34000 * O.unresolved.length)) hn.ne'
  have hbelow : -34000 ≤ -(known + 34000 * O.unresolved.length) / (O.resolved.length + O.unresolved.length : Nat) :=
    Int.le_ediv_of_mul_le hn (by push_cast; linarith)
  have habove : -(known + 34000 * O.unresolved.length) / (O.resolved.length + O.unresolved.length : Nat) ≤ 34000 :=
    Int.ediv_le_of_le_mul hn (by push_cast; linarith)
  rw [clampI128ToI64_eq (by omega) (by omega), min_eq_left (by omega), max_eq_right (by omega)]
  linarith

end Outcomes

/-! ## The gate -/

theorem gateClears_eq_cleared_iff {vloKan vhiHeur margin : Int} {nResolved overlapMass : Nat}
    (hkan : -2 ^ 63 ≤ vloKan ∧ vloKan < 2 ^ 63) (hheur : -2 ^ 63 ≤ vhiHeur ∧ vhiHeur < 2 ^ 63) :
    gateClears vloKan vhiHeur margin nResolved overlapMass = .cleared ↔
      MIN_RESOLVED_SUPPORT ≤ nResolved ∧ MIN_OVERLAP_MASS ≤ overlapMass ∧ vhiHeur + margin ≤ vloKan := by
  rw [gateClears, sat128_eq (by omega) (by omega)]
  split_ifs with hsupport hmargin
  · simp only [false_iff]
    omega
  · simp only [true_iff]
    omega
  · simp only [false_iff]
    omega

theorem clamp_mem (v : Int) :
    -2 ^ 63 ≤ max Y_LO (min v Y_HI) ∧ max Y_LO (min v Y_HI) < 2 ^ 63 := by
  have hband : Y_LO = -34000 ∧ Y_HI = 34000 := ⟨rfl, rfl⟩
  omega

theorem valueLowerBound_mem (overlapSum overlapSumSq : Int) (nOverlap nTotal : Nat) (grid : Grid)
    (deltaNum deltaDen : Nat) :
    -2 ^ 63 ≤ valueLowerBound overlapSum overlapSumSq nOverlap nTotal grid deltaNum deltaDen ∧
      valueLowerBound overlapSum overlapSumSq nOverlap nTotal grid deltaNum deltaDen < 2 ^ 63 := by
  rw [valueLowerBound]
  split_ifs
  · decide
  · exact clamp_mem _

theorem valueUpperHeuristic_mem (heurSum : Int) (nResolved nTotal : Nat) :
    -2 ^ 63 ≤ valueUpperHeuristic heurSum nResolved nTotal ∧ valueUpperHeuristic heurSum nResolved nTotal < 2 ^ 63 := by
  rw [valueUpperHeuristic]
  by_cases hzero : nTotal = 0
  · rw [if_pos hzero]
    decide
  · rw [if_neg hzero]
    exact clamp_mem _

/-- A cleared gate over evidence that carries: per decision the policy beats the heuristic
by the margin, whatever the outcomes that were not observed. -/
theorem cleared_gap {E : Evidence} {O : Outcomes} {margin : Int} {nResolved overlapMass : Nat}
    (hcleared : gateClears E.lower O.upper margin nResolved overlapMass = .cleared) (hcarry : E.FloorsCarry)
    {T : Int} (hT : E.nOverlap.toNat * E.overlapLb ≤ T) {ds : List E.Decision} (hlen : ds.length = E.nNoOverlap) :
    E.nTotal.toNat * O.total + E.nTotal.toNat * O.nTotal * margin ≤
      O.nTotal * (T + (ds.map Evidence.Decision.reward).sum) := by
  have hkan := valueLowerBound_mem E.overlapSum.toInt E.overlapSumSq.toInt E.nOverlap.toNat E.nTotal.toNat E.grid
    E.deltaNum.toNat E.deltaDen.toNat
  have hheur := valueUpperHeuristic_mem O.resolved.sum O.resolved.length O.nTotal
  obtain ⟨-, -, hgap⟩ := (gateClears_eq_cleared_iff hkan hheur).1 hcleared
  have hlower := E.sound_of_floorsCarry hcarry T hT ds hlen
  have hupper := O.total_le_upper
  have hE : (0 : Int) ≤ E.nTotal.toNat := Int.natCast_nonneg _
  have hO : (0 : Int) ≤ O.nTotal := Int.natCast_nonneg _
  calc (E.nTotal.toNat * O.total + E.nTotal.toNat * O.nTotal * margin : Int)
      ≤ E.nTotal.toNat * (O.nTotal * O.upper) + E.nTotal.toNat * O.nTotal * margin := by gcongr
    _ = E.nTotal.toNat * O.nTotal * (O.upper + margin) := by ring
    _ ≤ E.nTotal.toNat * O.nTotal * E.lower := mul_le_mul_of_nonneg_left hgap (mul_nonneg hE hO)
    _ = O.nTotal * (E.nTotal.toNat * E.lower) := by ring
    _ ≤ O.nTotal * (T + (ds.map Evidence.Decision.reward).sum) := mul_le_mul_of_nonneg_left hlower hO

end Yuva.Mem.Bakeoff
