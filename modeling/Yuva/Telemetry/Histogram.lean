/-
# `Yuva.Telemetry.Histogram` — the exit histogram

`ExitHistogram` of `tb-encode/src/exittel.rs`: a row of sixteen counters for each of the six
classes of exits.  An exit is counted by its cost, in the row of its class: bucket `b` holds the
costs from `2 ^ b` up to `2 ^ (b + 1)`, bucket 0 the cost 0 as well, and bucket 15 whatever is
above.  A counter stops at its largest value.

**Proved here.**  After any exits, in any order, each counter is the number of the exits that
belong to it, and what `record` returned for the last one is its own bucket and that number
(`histogram_exact`).  No exit is counted twice or in another's cell, and none is lost before a
counter is full.
-/
import Mathlib.Data.List.Induction
import Yuva.Lib.Run
import Yuva.Telemetry.Records

namespace Yuva.Exittel

open Yuva.Machine
open El2 (ExitClass)

/-- Of a 64-bit word. -/
def leadingZeros (x : BitVec 64) : Nat := if x = 0 then 64 else 63 - Nat.log2 x.toNat

def bucketIndex (delta : BitVec 64) : Nat :=
  if delta = 0 then 0
  else
    let hi := 63 - leadingZeros delta
    if hi ≥ N_BUCKETS then N_BUCKETS - 1 else hi

theorem bucketIndex_lt (delta : BitVec 64) : bucketIndex delta < N_BUCKETS := by
  unfold bucketIndex
  split
  · decide
  · dsimp only
    split
    · decide
    · omega

/-- The costs of a bucket. -/
def InBucket (b : Nat) (delta : BitVec 64) : Prop :=
  (b = 0 ∨ 2 ^ b ≤ delta.toNat) ∧ (b = N_BUCKETS - 1 ∨ delta.toNat < 2 ^ (b + 1))

instance (b : Nat) (delta : BitVec 64) : Decidable (InBucket b delta) :=
  inferInstanceAs (Decidable (_ ∧ _))

/-- A cost is in exactly one bucket, the one it is counted in. -/
theorem bucketIndex_eq_iff {b : Nat} (hb : b < N_BUCKETS) (delta : BitVec 64) :
    bucketIndex delta = b ↔ InBucket b delta := by
  by_cases hzero : delta = 0
  · subst hzero
    simp only [bucketIndex, if_true, InBucket, N_BUCKETS]
    constructor
    · rintro rfl
      exact ⟨.inl rfl, .inr (by decide)⟩
    · rintro ⟨hlow | hlow, -⟩
      · exact hlow.symm
      · exact absurd hlow (Nat.not_le.mpr (Nat.two_pow_pos b))
  · have hne : delta.toNat ≠ 0 := fun h => hzero (BitVec.eq_of_toNat_eq h)
    have hlog : delta.toNat.log2 < 64 := (Nat.log2_lt hne).mpr delta.isLt
    have hhi : 63 - leadingZeros delta = delta.toNat.log2 := by
      rw [leadingZeros, if_neg hzero]
      omega
    have hlow := Nat.log2_self_le hne
    have hhigh := Nat.lt_log2_self (n := delta.toNat)
    simp only [bucketIndex, if_neg hzero, hhi, N_BUCKETS, InBucket] at hb ⊢
    constructor
    · intro h
      split at h
      case isTrue htop =>
        subst h
        refine ⟨.inr (Nat.le_trans (Nat.pow_le_pow_right (by decide) (by omega)) hlow), .inl rfl⟩
      case isFalse =>
        subst h
        exact ⟨.inr hlow, .inr hhigh⟩
    · rintro ⟨hge, hlt⟩
      have hle : b ≤ delta.toNat.log2 := by
        rcases hge with rfl | hge
        · exact Nat.zero_le _
        · exact (Nat.le_log2 hne).mpr hge
      split
      case isTrue htop =>
        rcases hlt with rfl | hlt
        · rfl
        · have hupper := (Nat.log2_lt hne).mpr hlt
          omega
      case isFalse htop =>
        rcases hlt with rfl | hlt
        · omega
        · have hupper := (Nat.log2_lt hne).mpr hlt
          omega

/-- The row of a class. -/
def classIndex (c : ExitClass) : Fin N_CLASSES := ⟨(classTag c).toNat, by cases c <;> decide⟩

theorem classIndex_inj {c d : ExitClass} (h : classIndex c = classIndex d) : c = d := by
  cases c <;> cases d <;> first
    | rfl
    | exact absurd h (by decide)

structure ExitHistogram where
  cells : Vector (Vector (BitVec 64) N_BUCKETS) N_CLASSES

/-- `saturating_add(1)`. -/
def bump (x : BitVec 64) : BitVec 64 := .ofNat 64 (satU 64 (x.toNat + 1))

namespace ExitHistogram

def new : ExitHistogram := ⟨.replicate N_CLASSES (.replicate N_BUCKETS 0)⟩

/-- The bucket and the new count, and the histogram. -/
def record (h : ExitHistogram) (c : ExitClass) (delta : BitVec 64) : (UInt8 × BitVec 64) × ExitHistogram :=
  let bucket := bucketIndex delta
  have hbucket : bucket < N_BUCKETS := bucketIndex_lt delta
  let row := h.cells[classIndex c]
  let count := bump row[bucket]
  ((.ofNat bucket, count), ⟨h.cells.set (classIndex c) (row.set bucket count)⟩)

def count (h : ExitHistogram) (c : ExitClass) (bucket : Nat) : BitVec 64 :=
  if hb : bucket < N_BUCKETS then h.cells[classIndex c][bucket] else 0

/-- One counter goes up, every other one keeps its value. -/
theorem count_record (h : ExitHistogram) (c d : ExitClass) (delta : BitVec 64) (b : Nat) :
    (h.record c delta).2.count d b =
      if d = c ∧ b = bucketIndex delta then bump (h.count c (bucketIndex delta)) else h.count d b := by
  have hbucket := bucketIndex_lt delta
  by_cases hb : b < N_BUCKETS
  · rw [count, dif_pos hb, count, dif_pos hbucket, count, dif_pos hb]
    show ((h.cells.set (classIndex c) (h.cells[classIndex c].set (bucketIndex delta)
      (bump h.cells[classIndex c][bucketIndex delta])))[classIndex d])[b] = _
    by_cases hcls : d = c
    · subst hcls
      simp only [Fin.getElem_fin, Vector.getElem_set_self, true_and, Vector.getElem_set, eq_comm (a := bucketIndex delta)]
    · have hne : (classIndex c).val ≠ (classIndex d).val := fun heq => hcls (classIndex_inj (Fin.ext heq)).symm
      simp only [Fin.getElem_fin, Vector.getElem_set_ne _ _ hne, hcls, false_and, if_false]
  · rw [count, dif_neg hb, if_neg (fun hcond : d = c ∧ b = bucketIndex delta => hb (hcond.2 ▸ hbucket)), count, dif_neg hb]

end ExitHistogram

/-! ## Runs -/

/-- An exit as it is counted: its class and its cost. -/
abbrev Observed := ExitClass × BitVec 64

/-- It belongs to a cell. -/
def Belongs (c : ExitClass) (b : Nat) (e : Observed) : Prop := e.1 = c ∧ InBucket b e.2

instance (c : ExitClass) (b : Nat) : DecidablePred (Belongs c b) := fun e =>
  inferInstanceAs (Decidable (e.1 = c ∧ InBucket b e.2))

/-- How many of the exits belong to a cell. -/
def tally (es : List Observed) (c : ExitClass) (b : Nat) : Nat := es.countP fun e => Belongs c b e

/-- The histogram after a list of exits. -/
def observe (es : List Observed) : ExitHistogram := Run.exec (fun h e => (h.record e.1 e.2).2) .new es

theorem observe_snoc (es : List Observed) (e : Observed) :
    observe (es ++ [e]) = ((observe es).record e.1 e.2).2 := Run.exec_append _ _ _ _

/-- The largest value a counter holds. -/
def FULL : Nat := 2 ^ 64 - 1

theorem bump_ofNat {x : BitVec 64} {n : Nat} (h : x.toNat = min n FULL) : (bump x).toNat = min (n + 1) FULL := by
  have hlt := x.isLt
  have hsat : satU 64 (x.toNat + 1) = min (x.toNat + 1) FULL := rfl
  rw [bump, hsat, BitVec.toNat_ofNat, h, FULL, Nat.mod_eq_of_lt (by omega)]
  omega

theorem count_observe (es : List Observed) (c : ExitClass) {b : Nat} (hb : b < N_BUCKETS) :
    ((observe es).count c b).toNat = min (tally es c b) FULL := by
  induction es using List.reverseRecOn with
  | nil =>
      have hzero : (observe []).count c b = 0 := by
        rw [ExitHistogram.count, dif_pos hb]
        simp [observe, ExitHistogram.new]
      rw [hzero]
      rfl
  | append_singleton es e ih =>
      have htally : tally (es ++ [e]) c b = tally es c b + if Belongs c b e then 1 else 0 := by
        rw [tally, tally, List.countP_append, List.countP_singleton]
        simp only [decide_eq_true_eq]
      rw [observe_snoc, ExitHistogram.count_record, htally]
      by_cases hcell : Belongs c b e
      · have hbucket := (bucketIndex_eq_iff hb e.2).mpr hcell.2
        rw [if_pos ⟨hcell.1.symm, hbucket.symm⟩, if_pos hcell, hbucket, hcell.1]
        exact bump_ofNat ih
      · have hother : ¬(c = e.1 ∧ b = bucketIndex e.2) := fun h =>
          hcell ⟨h.1.symm, (bucketIndex_eq_iff hb e.2).mp h.2.symm⟩
        rw [if_neg hother, if_neg hcell, ih, Nat.add_zero]

/-- Counters are exact: each is the number of exits of its class whose cost lies in its bucket,
up to the largest value it holds, and `record` answers with the cell of the exit and that
number. -/
theorem histogram_exact (es : List Observed) :
    (∀ c b, ((observe es).count c b).toNat = if b < N_BUCKETS then min (tally es c b) FULL else 0) ∧
      ∀ e : Observed, ∃ b < N_BUCKETS, InBucket b e.2 ∧
        ((observe es).record e.1 e.2).1 = (.ofNat b, .ofNat 64 (min (tally (es ++ [e]) e.1 b) FULL)) := by
  refine ⟨fun c b => ?_, fun e => ?_⟩
  · by_cases hb : b < N_BUCKETS
    · rw [if_pos hb, count_observe es c hb]
    · rw [if_neg hb, ExitHistogram.count, dif_neg hb]
      rfl
  · have hb := bucketIndex_lt e.2
    refine ⟨bucketIndex e.2, hb, (bucketIndex_eq_iff hb e.2).mp rfl, ?_⟩
    have hcount := count_observe (es ++ [e]) e.1 hb
    rw [observe_snoc, ExitHistogram.count_record, if_pos ⟨rfl, rfl⟩] at hcount
    have hsecond : ((observe es).record e.1 e.2).1.2 = bump ((observe es).count e.1 (bucketIndex e.2)) := by
      rw [ExitHistogram.count, dif_pos hb]
      rfl
    refine Prod.ext rfl (hsecond.trans ?_)
    rw [← hcount, BitVec.ofNat_toNat, BitVec.setWidth_eq]

end Yuva.Exittel
