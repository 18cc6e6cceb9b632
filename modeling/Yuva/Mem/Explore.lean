/-
# `Yuva.Mem.Explore` — the exploration coin against the propensity stamped for it

A forget decision with `m` cleared candidates draws a coin from a hash of its id,

    coin = witness % EPS_DEN % m,

and serves the greedy action when the coin is zero.  The record of the decision is stamped
with `explore_propensity_q`, the closed form of `pi(greedy) = (1 - eps) + eps/m`.

The coin depends on the witness modulo `EPS_DEN * m` only (`coinIsGreedy_residue`), so its
odds are a count of residues.  Of every `EPS_DEN` consecutive ones those divisible by `m`
are greedy, `⌈EPS_DEN / m⌉` of them: a half when `m = 2`, less beyond (`greedyFraction_eq`).
The closed form is never below `15/16`.  The two therefore agree for no `m`, and the
propensity stamped into an explorable decision is not the probability of its choice.
-/
import Yuva.Mem.Organ
import Mathlib.Data.Int.CardIntervalMod
import Mathlib.Data.Nat.Periodic

namespace Yuva.Mem.MemSubstrate

open Yuva.Machine

/-! ## Counting a periodic predicate -/

theorem count_mul_of_periodic (p : Nat → Prop) [DecidablePred p] {d : Nat} (hp : Function.Periodic p d)
    (m : Nat) : Nat.count p (d * m) = m * Nat.count p d := by
  induction m with
  | zero => rw [Nat.mul_zero, Nat.zero_mul, Nat.count_zero]
  | succ m ih =>
      have hshift : (fun k => p (d * m + k)) = p := by
        funext k
        rw [Nat.add_comm, Nat.mul_comm]
        exact hp.nat_mul m k
      have hlast : Nat.count (fun k => p (d * m + k)) d = Nat.count p d := by
        simp only [hshift]
      rw [Nat.mul_succ, Nat.count_add, ih, hlast, Nat.succ_mul]

/-! ## The coin -/

/-- The hash of a decision's id. -/
def exploreWitness (decisionId : BitVec 64) : BitVec 64 :=
  Prov.headWitness (Prov.chainMix (lane AGENT_SEED) (lane decisionId))

/-- The coin at a witness. -/
def coinIsGreedy (m witness : Nat) : Bool :=
  if m ≤ 1 then true else witness % max EPS_DEN 1 % max m 1 == 0

theorem exploreIsGreedy_eq (decisionId : BitVec 64) (m : Nat) :
    exploreIsGreedy decisionId m = coinIsGreedy m (exploreWitness decisionId).toNat := rfl

theorem coinIsGreedy_iff {m : Nat} (hm : 2 ≤ m) (w : Nat) :
    coinIsGreedy m w = true ↔ w % EPS_DEN % m = 0 := by
  have hone : ¬ m ≤ 1 := by omega
  have hmax : max m 1 = m := by omega
  rw [coinIsGreedy, if_neg hone, hmax, beq_iff_eq]
  rfl

/-- Only the residue of the witness modulo `EPS_DEN * m` matters. -/
theorem coinIsGreedy_residue (m w : Nat) : coinIsGreedy m (w % (EPS_DEN * m)) = coinIsGreedy m w := by
  have hmod : w % (EPS_DEN * m) % max EPS_DEN 1 = w % max EPS_DEN 1 := Nat.mod_mul_right_mod w EPS_DEN m
  rw [coinIsGreedy, hmod]
  rfl

/-- The share of the residues on which the greedy action is served. -/
def greedyFraction (m : Nat) : ℚ :=
  Nat.count (fun r => coinIsGreedy m r = true) (EPS_DEN * m) / (EPS_DEN * m : Nat)

theorem count_greedy {m : Nat} (hm : 2 ≤ m) :
    Nat.count (fun r => coinIsGreedy m r = true) (EPS_DEN * m) =
      m * (EPS_DEN / m + if 0 < EPS_DEN % m then 1 else 0) := by
  have hperiodic : Function.Periodic (fun r => coinIsGreedy m r = true) EPS_DEN := by
    intro r
    dsimp only
    rw [eq_iff_iff, coinIsGreedy_iff hm, coinIsGreedy_iff hm, Nat.add_mod_right]
  have hbelow : Nat.count (fun r => coinIsGreedy m r = true) EPS_DEN =
      Nat.count (fun r => r ≡ 0 [MOD m]) EPS_DEN := by
    rw [Nat.count_eq_card_filter_range, Nat.count_eq_card_filter_range]
    refine congrArg Finset.card (Finset.filter_congr fun r hr => ?_)
    rw [coinIsGreedy_iff hm, Nat.mod_eq_of_lt (Finset.mem_range.mp hr), Nat.modEq_zero_iff_dvd,
      Nat.dvd_iff_mod_eq_zero]
  rw [count_mul_of_periodic _ hperiodic, hbelow, Nat.count_modEq_card _ (by omega), Nat.zero_mod]

theorem greedyFraction_eq {m : Nat} (hm : 2 ≤ m) :
    greedyFraction m = (EPS_DEN / m + if 0 < EPS_DEN % m then 1 else 0 : Nat) / EPS_DEN := by
  have hpos : (m : ℚ) ≠ 0 := by exact_mod_cast (by omega : m ≠ 0)
  rw [greedyFraction, count_greedy hm, Nat.cast_mul, Nat.cast_mul, mul_comm (EPS_DEN : ℚ),
    mul_div_mul_left _ _ hpos]

theorem greedyFraction_le {m : Nat} (hm : 2 ≤ m) : greedyFraction m ≤ 1 / 2 := by
  have hcount : EPS_DEN / m + (if 0 < EPS_DEN % m then 1 else 0) ≤ 8 := by
    rcases Nat.lt_or_ge 2 m with hlt | hle
    · have hdiv : EPS_DEN / m ≤ EPS_DEN / 3 := Nat.div_le_div_left hlt (by decide)
      have hfive : EPS_DEN / 3 = 5 := rfl
      split <;> omega
    · cases Nat.le_antisymm hle hm
      decide
  rw [greedyFraction_eq hm, show (EPS_DEN : ℚ) = 16 from rfl]
  have : ((EPS_DEN / m + if 0 < EPS_DEN % m then 1 else 0 : Nat) : ℚ) ≤ 8 := by exact_mod_cast hcount
  linarith

theorem greedyFraction_two : greedyFraction EXPLORE_CLEARED_M = 1 / 2 := by
  rw [greedyFraction_eq (by decide)]
  norm_num [EPS_DEN, EXPLORE_CLEARED_M]

/-! ## The stamp -/

/-- `eps`, as a rational. -/
def eps : ℚ := EPS_NUM / EPS_DEN

theorem closed_form_ge (m : Nat) : 15 / 16 ≤ (1 - eps) + eps / m := by
  have heps : eps = 1 / 16 := by norm_num [eps, EPS_NUM, EPS_DEN]
  have hshare : 0 ≤ eps / m := by
    rw [heps]
    positivity
  linarith

theorem stamp_ge {m : Nat} (hm : 2 ≤ m) : 938 ≤ explorePropensityQ EPS_NUM EPS_DEN m true := by
  have hzero : m ≠ 0 := by omega
  have hone : m ≠ 1 := by omega
  rw [explorePropensityQ, if_neg hzero, if_neg hone, if_neg (by decide)]
  dsimp only
  rw [if_pos rfl]
  have hnum : satU 64 (PROPENSITY_SCALE * EPS_NUM) = 1000 := rfl
  have hmass : 1000 / EPS_DEN = 62 := rfl
  have hother : 1000 / satU 64 (EPS_DEN * m) ≤ 1000 := Nat.div_le_self _ _
  rw [hnum, hmass, show PROPENSITY_SCALE = 1000 from rfl]
  generalize 1000 / satU 64 (EPS_DEN * m) = other at hother ⊢
  rw [satU_of_lt (by omega)]
  omega

theorem stamp_greedy : explorePropensityQ EPS_NUM EPS_DEN EXPLORE_CLEARED_M true = 969 := rfl

theorem stamp_other : explorePropensityQ EPS_NUM EPS_DEN EXPLORE_CLEARED_M false = 31 := rfl

/-- The odds of the choice a decision with two candidates records. -/
def choiceChance (greedy : Bool) : ℚ :=
  if greedy then greedyFraction EXPLORE_CLEARED_M else 1 - greedyFraction EXPLORE_CLEARED_M

/-- The envelope clears a record to be demoted. -/
def safeToDemote (clock : BitVec 64) (r : MemRecord) : Prop :=
  blaRaw r.count (subSat clock r.tCreated).toNat < THETA_DEMOTE ∧ (r.importance : Int) < IMP_PIN ∧
    (((r.cSucc : Int) + 1) * SCALE).tdiv ((r.cUse : Int) + 2) < UTIL_PIN

instance (clock : BitVec 64) (r : MemRecord) : Decidable (safeToDemote clock r) :=
  inferInstanceAs (Decidable (_ ∧ _))

/-- The candidates of a decision: a cleared record has an alternative. -/
def candidateCount (clock : BitVec 64) (r : MemRecord) : Nat :=
  if safeToDemote clock r then EXPLORE_CLEARED_M else EXPLORE_SINGLETON_M

/-- What the sweep stamps into a decision. -/
theorem stamped {clock : BitVec 64} {r : MemRecord} {demote : Bool} {obs : Exp.ExperienceRecord}
    (h : forgetDecision clock r = (demote, some obs)) :
    obs.loggingPropensityQ = BitVec.ofNat 16 (explorePropensityQ EPS_NUM EPS_DEN (candidateCount clock r)
      (exploreIsGreedy r.id (candidateCount clock r))) ∧
    obs.loggingPolicyKind =
      if candidateCount clock r > 1 then Exp.PolicyKind.SOFT_GREEDY else Exp.PolicyKind.DETERMINISTIC := by
  rw [forgetDecision] at h
  split at h
  · cases h
  · dsimp only at h
    split at h
    · cases h
    · obtain rfl := Option.some.inj (Prod.mk.inj h).2
      refine ⟨rfl, ?_⟩
      by_cases hsafe : safeToDemote clock r
      · rw [candidateCount, if_pos hsafe]
        unfold safeToDemote at hsafe
        dsimp only
        rw [if_pos hsafe]
      · rw [candidateCount, if_neg hsafe]
        unfold safeToDemote at hsafe
        dsimp only
        rw [if_neg hsafe]

theorem stamped_softGreedy {clock : BitVec 64} {r : MemRecord} {demote : Bool} {obs : Exp.ExperienceRecord}
    (h : forgetDecision clock r = (demote, some obs))
    (hkind : obs.loggingPolicyKind = Exp.PolicyKind.SOFT_GREEDY) :
    obs.loggingPropensityQ.toNat =
      explorePropensityQ EPS_NUM EPS_DEN EXPLORE_CLEARED_M (exploreIsGreedy r.id EXPLORE_CLEARED_M) := by
  obtain ⟨hq, hpolicy⟩ := stamped h
  by_cases hsafe : safeToDemote clock r
  · have hm : candidateCount clock r = EXPLORE_CLEARED_M := if_pos hsafe
    rw [hq, hm]
    generalize exploreIsGreedy r.id EXPLORE_CLEARED_M = greedy
    cases greedy with
    | true => rw [stamp_greedy]; rfl
    | false => rw [stamp_other]; rfl
  · have hm : candidateCount clock r = EXPLORE_SINGLETON_M := if_neg hsafe
    rw [hpolicy, hm] at hkind
    exact absurd hkind (by decide)

theorem stamp_off (greedy : Bool) :
    400 < |PROPENSITY_SCALE * choiceChance greedy - explorePropensityQ EPS_NUM EPS_DEN EXPLORE_CLEARED_M greedy| := by
  rw [choiceChance, greedyFraction_two]
  cases greedy with
  | true =>
      rw [stamp_greedy]
      norm_num [PROPENSITY_SCALE]
  | false =>
      rw [stamp_other]
      norm_num [PROPENSITY_SCALE]

/-- For no count of candidates are the odds of the greedy action those of the closed form,
nor within four hundred units of the propensity; and every explorable decision is stamped
as far from the odds of the choice it records. -/
theorem propensity_never_matches (m : Nat) (hm : 2 ≤ m) :
    greedyFraction m ≠ (1 - eps) + eps / m ∧
    400 < |PROPENSITY_SCALE * greedyFraction m - explorePropensityQ EPS_NUM EPS_DEN m true| ∧
    ∀ (clock : BitVec 64) (r : MemRecord) (demote : Bool) (obs : Exp.ExperienceRecord),
      forgetDecision clock r = (demote, some obs) →
      obs.loggingPolicyKind = Exp.PolicyKind.SOFT_GREEDY →
      400 < |PROPENSITY_SCALE * choiceChance (exploreIsGreedy r.id EXPLORE_CLEARED_M) -
        obs.loggingPropensityQ.toNat| := by
  have hle := greedyFraction_le hm
  refine ⟨?_, ?_, ?_⟩
  · intro heq
    have hge := closed_form_ge m
    linarith
  · have hge : (938 : ℚ) ≤ explorePropensityQ EPS_NUM EPS_DEN m true := by exact_mod_cast stamp_ge hm
    have hscale : (PROPENSITY_SCALE : ℚ) = 1000 := rfl
    rw [hscale, lt_abs]
    right
    linarith
  · intro clock r demote obs h hkind
    rw [stamped_softGreedy h hkind]
    exact stamp_off _

theorem propensity_never_matches_two : 2 ≤ EXPLORE_CLEARED_M ∧
    greedyFraction EXPLORE_CLEARED_M ≠ (1 - eps) + eps / EXPLORE_CLEARED_M :=
  ⟨by decide, (propensity_never_matches EXPLORE_CLEARED_M (by decide)).1⟩

/-- Two candidates, the only count the sweep explores: a half, against `31/32`. -/
theorem greedy_half_of_two : ¬ ∀ m : Nat, 2 ≤ m → greedyFraction m = (1 - eps) + eps / m := by
  intro h
  have htwo := h EXPLORE_CLEARED_M (by decide)
  rw [greedyFraction_two] at htwo
  norm_num [eps, EPS_NUM, EPS_DEN, EXPLORE_CLEARED_M] at htwo

end Yuva.Mem.MemSubstrate
