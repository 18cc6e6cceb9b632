/-
# `Yuva.Mem.Failures` — the operations that write before they fail

A procedural write checks before it writes.  The others write first:

    an append accrues its importance, then asks for quota
    a deletion ticks the clock, found or not
    a recall from cursor zero clears the ring, then looks for a candidate

`Stains` is when an operation fails after one of these writes, as a predicate on the state
before: what an operation that fails leaves is what it found exactly when it does not stain.
-/
import Yuva.Mem.Audit

namespace Yuva.Mem.MemSubstrate

open Yuva.Machine

/-- Recall would serve a record: a live hot one that was not just retrieved. -/
def Eligible (s : MemSubstrate) (query : BitVec 64) : Prop :=
  ∃ postings, s.t3.lexical[query]? = some postings ∧
    ∃ ri ∈ postings, s.t3.records[ri]!.active = true ∧ s.finsts.contains s.t3.records[ri]!.id = false

/-- The ring as a recall from this cursor finds it. -/
def fresh (s : MemSubstrate) (cursor : BitVec 64) : MemSubstrate :=
  if cursor = 0 then { s with finsts := Finsts.clear } else s

/-- A failing operation that writes before it fails. -/
def Stains (s : MemSubstrate) : Op → Prop
  | .write op key _ _ =>
      (op = 0 ∨ op = 1) ∧ ¬ HasQuota s ∧ s.impAccum ≠ 2 ^ 32 - 1 ∨
      op = 2 ∧ ∀ r ∈ s.t3.records, ¬ (r.token = key ∧ r.tInvalid = 0)
  | .tbRecall query cursor _ _ => cursor = 0 ∧ s.finsts ≠ Finsts.clear ∧ ¬ Eligible (s.fresh cursor) query
  | _ => False

theorem ne_of_ticked {s t : MemSubstrate} (h : t.clock = s.clock + 1) : t ≠ s := by
  rintro rfl
  exact absurd (BitVec.self_eq_add_right.mp h) (by decide)

theorem accrue_eq_iff {s : MemSubstrate} {imp : Nat} (himp : 1 ≤ imp) :
    s.accrue imp = s ↔ s.impAccum = 2 ^ 32 - 1 := by
  have hsat : satU 32 (s.impAccum + imp) = s.impAccum ↔ s.impAccum = 2 ^ 32 - 1 := by
    rw [satU]
    omega
  rw [← hsat]
  constructor
  · exact fun h => congrArg MemSubstrate.impAccum h
  · intro h
    rw [accrue, h]

theorem add_failed (s : MemSubstrate) (key value packed : BitVec 64) :
    ((s.add key value packed).1 = none ↔ ¬ HasQuota s) ∧
    (¬ HasQuota s → ((s.add key value packed).2 = s ↔ s.impAccum = 2 ^ 32 - 1)) := by
  rw [add, pushRecord, HasQuota]
  have himp : 1 ≤ max 1 (min (packed &&& 0xFF).toNat 10) := Nat.le_max_left _ _
  by_cases hover : satU 64 (s.quota.tokensWritten + 1) > TOKEN_QUOTA
  · have hover' : satU 64 ((s.accrue (max 1 (min (packed &&& 0xFF).toNat 10))).quota.tokensWritten + 1) >
        TOKEN_QUOTA := hover
    rw [if_pos hover']
    exact ⟨iff_of_true rfl (Nat.not_le.mpr hover), fun _ => accrue_eq_iff himp⟩
  · have hover' : ¬ satU 64 ((s.accrue (max 1 (min (packed &&& 0xFF).toNat 10))).quota.tokensWritten + 1) >
        TOKEN_QUOTA := hover
    rw [if_neg hover']
    exact ⟨iff_of_false (Option.some_ne_none _) (not_not.mpr (Nat.le_of_not_lt hover)),
      fun hno => absurd (Nat.le_of_not_lt hover) hno⟩

theorem delete_failed (s : MemSubstrate) (key : BitVec 64) :
    ((s.delete key).1 = none ↔ ∀ r ∈ s.t3.records, ¬ (r.token = key ∧ r.tInvalid = 0)) ∧
    (s.delete key).2 ≠ s := by
  constructor
  · rw [delete]
    dsimp only
    rw [Option.map_eq_none_iff, List.find?_eq_none]
    simp only [List.mem_reverse, Bool.and_eq_true, beq_iff_eq]
  · rw [delete]
    dsimp only
    refine ne_of_ticked (congrArg (· + 1) ?_)
    split <;> rfl

/-- A write fails with the operation of the store, and leaves what that leaves. -/
theorem write_store_failed (s : MemSubstrate) (op key value packed : BitVec 64)
    {r : Option (BitVec 64) × MemSubstrate}
    (hr : (if op = 0 ∨ op = 1 then s.add key value packed
      else if op = 2 then s.delete key else (some 0, s)) = r) :
    ((s.write op key value packed).1 = none ↔ r.1 = none) ∧
    (r.1 = none → (s.write op key value packed).2 = r.2) := by
  obtain ⟨rid, t⟩ := r
  rw [write, hr]
  dsimp only
  cases rid with
  | none => exact ⟨Iff.rfl, fun _ => rfl⟩
  | some id =>
      refine ⟨iff_of_false ?_ (Option.some_ne_none _), fun hnone => absurd hnone (Option.some_ne_none id)⟩
      dsimp only
      split <;> exact Option.some_ne_none _

theorem write_failed (s : MemSubstrate) (op key value packed : BitVec 64) :
    ((s.write op key value packed).1 = none → (s.write op key value packed).2 = s) ↔
      ¬ Stains s (.write op key value packed) := by
  rw [Stains]
  by_cases hadd : op = 0 ∨ op = 1
  · have hdel : op ≠ 2 := by
      rcases hadd with rfl | rfl <;> decide
    obtain ⟨hwnone, hwstate⟩ := write_store_failed s op key value packed (if_pos hadd)
    obtain ⟨hnone, hsame⟩ := add_failed s key value packed
    rw [hwnone, hnone]
    by_cases hquota : HasQuota s
    · exact iff_of_true (fun hno => absurd hquota hno) (by tauto)
    · rw [hwstate (hnone.mpr hquota), hsame hquota]
      tauto
  · by_cases hdel : op = 2
    · obtain ⟨hwnone, hwstate⟩ := write_store_failed s op key value packed
        ((if_neg hadd).trans (if_pos hdel))
      obtain ⟨hnone, hticked⟩ := delete_failed s key
      rw [hwnone, hnone]
      by_cases hmiss : ∀ r ∈ s.t3.records, ¬ (r.token = key ∧ r.tInvalid = 0)
      · rw [hwstate (hnone.mpr hmiss)]
        exact iff_of_false (fun h => hticked (h hmiss)) (not_not.mpr (.inr ⟨hdel, hmiss⟩))
      · exact iff_of_true (fun h => absurd h hmiss) (by tauto)
    · obtain ⟨hwnone, -⟩ := write_store_failed s op key value packed
        ((if_neg hadd).trans (if_neg hdel))
      refine iff_of_true (fun h => ?_) (by tauto)
      cases hwnone.mp h

/-! ### Recall -/

theorem candidates_eq_nil_iff {s : MemSubstrate} {postings : List Nat} :
    s.candidates postings = [] ↔ ¬ ∃ ri ∈ postings,
      s.t3.records[ri]!.active = true ∧ s.finsts.contains s.t3.records[ri]!.id = false := by
  rw [candidates, List.filter_eq_nil_iff]
  simp only [Bool.and_eq_true, Bool.not_eq_true', not_exists, not_and]

/-- Recall serves a record, and ticks, when one is eligible. -/
theorem retrieve_cases (s : MemSubstrate) (query : BitVec 64) :
    (¬ Eligible s query ∧ s.retrieve query = (none, s)) ∨
    (Eligible s query ∧ (s.retrieve query).1 ≠ none ∧ (s.retrieve query).2.clock = s.clock + 1) := by
  rw [retrieve]
  cases hpost : s.t3.lexical[query]? with
  | none =>
      refine .inl ⟨?_, rfl⟩
      rintro ⟨postings, hsome, -⟩
      cases hpost.symm.trans hsome
  | some postings =>
      dsimp only
      by_cases hcand : s.candidates postings = []
      · rw [hcand]
        refine .inl ⟨?_, rfl⟩
        rintro ⟨postings', hsome, hri⟩
        cases hpost.symm.trans hsome
        exact candidates_eq_nil_iff.mp hcand hri
      · rw [if_neg (by rwa [List.isEmpty_iff])]
        refine .inr ⟨⟨postings, hpost, ?_⟩, ?_, ?_⟩
        · exact not_not.mp fun hno => hcand (candidates_eq_nil_iff.mpr hno)
        · rw [serve]
          exact Option.some_ne_none _
        · rw [serve]
          dsimp only
          rw [xpRecord_eq]
          rfl

theorem tbRecall_eq (s : MemSubstrate) (query cursor k weights : BitVec 64) :
    s.tbRecall query cursor k weights = (s.fresh cursor).retrieve query := rfl

theorem fresh_eq_iff {s : MemSubstrate} {cursor : BitVec 64} :
    s.fresh cursor = s ↔ ¬ (cursor = 0 ∧ s.finsts ≠ Finsts.clear) := by
  rw [fresh]
  split
  · next hzero =>
      rw [and_iff_right hzero, not_not]
      constructor
      · exact fun h => (congrArg MemSubstrate.finsts h).symm
      · intro h
        rw [← h]
  · next hzero => exact iff_of_true rfl fun h => hzero h.1

/-- What a recall that finds nothing leaves. -/
theorem tbRecall_failed (s : MemSubstrate) (query cursor k weights : BitVec 64) :
    ((s.tbRecall query cursor k weights).1 = none ↔ ¬ Eligible (s.fresh cursor) query) ∧
    (¬ Eligible (s.fresh cursor) query → ((s.tbRecall query cursor k weights).2 = s ↔
      ¬ Stains s (.tbRecall query cursor k weights))) ∧
    (Eligible (s.fresh cursor) query → (s.tbRecall query cursor k weights).2 ≠ s) := by
  rw [tbRecall_eq, Stains]
  rcases retrieve_cases (s.fresh cursor) query with ⟨hno, hsame⟩ | ⟨helig, hsome, hticked⟩
  · rw [hsame]
    refine ⟨iff_of_true rfl hno, fun _ => ?_, fun helig => absurd helig hno⟩
    rw [fresh_eq_iff]
    tauto
  · refine ⟨iff_of_false hsome (not_not.mpr helig), fun hno => absurd helig hno, fun _ => ?_⟩
    refine ne_of_ticked (hticked.trans ?_)
    rw [fresh]
    split <;> rfl

/-! ### The procedural writes -/

theorem skillAddClass_failed {s : MemSubstrate} {body desc packed : BitVec 64} {prov : UInt8}
    (h : (s.skillAddClass body desc packed prov).1 = none) :
    (s.skillAddClass body desc packed prov).2 = s := by
  rw [skillAddClass] at h ⊢
  split at h
  · next hover => rw [if_pos hover]
  · cases h

theorem writeProc_failed (s : MemSubstrate) (op a b c : BitVec 64) (h : (s.writeProc op a b c).1 = none) :
    (s.writeProc op a b c).2 = s := by
  rw [writeProc] at h ⊢
  split at h
  case h_1 => exact skillAddClass_failed h
  case h_6 => exact skillAddClass_failed h
  case h_2 =>
      rw [skillBumpUtil] at h ⊢
      cases hidx : s.skillIdx a with
      | none => rfl
      | some i =>
          rw [hidx] at h
          cases h
  case h_4 =>
      rw [skillLink] at h ⊢
      cases hidx : s.skillIdx a with
      | none => rfl
      | some i =>
          rw [hidx] at h
          cases h
  all_goals rfl

end Yuva.Mem.MemSubstrate
