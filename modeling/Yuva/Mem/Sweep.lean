/-
# `Yuva.Mem.Sweep` — the forget sweep reaches every record

A sweep examines a batch of positions from a clock hand that the next sweep takes up again.
`examinations` lists them with the substrate in which each record is examined, so that *when
examined* can be said of the record and the clock as they were then; a sweep is these turns one
after the other and nothing else (`Turns`).  One sweep makes cold exactly the records that are
`Forgettable` when examined and changes no other field of any record (`swept_forgetSweep`).  Along
a run that adds no record the batches follow each other around the store (`examined_eq`): whatever
is done between two sweeps, the hand stays where it stopped.

A record is forgettable only past its grace window.  The source lets an age equal to `MIN_AGE`
pass that gate, but at that age no activation is below the threshold (`blaRaw_grace`).
-/
import Mathlib.Algebra.Order.Floor.Div
import Yuva.Lib.Hand
import Yuva.Mem.Explore
import Yuva.Mem.Ranking

namespace Yuva.Mem

open Yuva.Machine Yuva.Run Yuva.Hand MemSubstrate

/-! ## The decision -/

/-- Live, hot, older than the grace window, and below the three thresholds of the envelope. -/
def MemRecord.Forgettable (clock : BitVec 64) (r : MemRecord) : Prop :=
  r.tInvalid = 0 ∧ r.tier = .hot ∧ MIN_AGE < (subSat clock r.tCreated).toNat ∧ safeToDemote clock r

instance (clock : BitVec 64) (r : MemRecord) : Decidable (r.Forgettable clock) :=
  inferInstanceAs (Decidable (_ ∧ _))

theorem log2Fixed_ge {x : Nat} (hx : 4 ≤ x) : 1000 ≤ log2Fixed x := by
  have hip : 2 ≤ x.log2 := (Nat.le_log2 (by omega)).2 hx
  rw [log2Fixed, if_neg (by omega)]
  dsimp only
  rw [SCALE]
  rcases Nat.lt_or_ge x.log2 64 with hlt | hge
  · have hfrac := (frac_bounds hlt (Nat.log2_self_le (by omega)) Nat.lt_log2_self).1
    rw [SCALE] at hfrac
    omega
  · -- Past 64 bits the divisor wraps to zero, and so does the quotient.
    have hpow : wrapI 64 (2 ^ x.log2 : Nat) = 0 := by
      obtain ⟨k, hk⟩ := Nat.exists_eq_add_of_le hge
      rw [hk, pow_add, wrapI, Nat.cast_mul]
      exact Int.bmod_eq_zero_of_dvd (Dvd.intro _ rfl)
    rw [hpow, Int.tdiv_zero]
    omega

/-- At the end of the grace window nothing is stale yet. -/
theorem blaRaw_grace (count : Nat) : THETA_DEMOTE ≤ blaRaw count MIN_AGE := by
  have hrecency : (lnFixed (wrapU 64 (MIN_AGE + 1))).tdiv 2 = 1407 := by decide
  rw [blaRaw, hrecency, THETA_DEMOTE]
  cases count with
  | zero => decide
  | succ n =>
      have hlog := log2Fixed_ge (x := 2 * (n + 1 + 1)) (by omega)
      rw [lnFixed, LN2_FIXED, SCALE, Int.tdiv_eq_ediv_of_nonneg (by omega)]
      omega

theorem forgetDecision_iff {clock : BitVec 64} {r : MemRecord} :
    (forgetDecision clock r).1 = true ↔ r.Forgettable clock := by
  rw [forgetDecision, MemRecord.Forgettable]
  cases hactive : r.active with
  | false =>
      have hdead : ¬ (r.tInvalid = 0 ∧ r.tier = .hot) := by
        simpa only [MemRecord.active, Bool.and_eq_false_iff, beq_eq_false_iff_ne, ne_eq, not_and_or] using hactive
      simp only [Bool.not_false, if_true, Bool.false_eq_true, false_iff]
      exact fun h => hdead ⟨h.1, h.2.1⟩
  | true =>
      have hlive : r.tInvalid = 0 ∧ r.tier = .hot := by
        simpa only [MemRecord.active, Bool.and_eq_true, beq_iff_eq] using hactive
      simp only [Bool.not_true, Bool.false_eq_true, if_false, hlive, true_and]
      rcases Nat.lt_or_ge (subSat clock r.tCreated).toNat MIN_AGE with hage | hage
      · rw [if_pos hage]
        exact iff_of_false Bool.noConfusion fun h => absurd hage h.1.not_gt
      · have hdormant : ∀ p : Prop, ¬ (KAN_ACTIVE = true ∧ p) := fun _ h => absurd h.1 (by decide)
        rw [if_neg hage.not_gt]
        dsimp only
        rw [if_neg (hdormant _), decide_eq_true_eq]
        refine ⟨fun hsafe => ⟨lt_of_le_of_ne hage fun heq => ?_, hsafe⟩, And.right⟩
        have hstale := hsafe.1
        rw [← heq] at hstale
        exact absurd (blaRaw_grace r.count) hstale.not_ge

/-! ## One examination -/

/-- What examining a record makes of it. -/
def MemRecord.swept (clock : BitVec 64) (r : MemRecord) : MemRecord :=
  if r.Forgettable clock then r.demote else r

/-- What a sweep leaves: all but the records, the logs and the cursor. -/
def unswept (s : MemSubstrate) :
    EpisodicJournal × Std.TreeMap (BitVec 64) (List Nat) × BitVec 64 × Quota × ProceduralStore :=
  (s.t2, s.t3.lexical, s.clock, s.quota, s.t4)

theorem observe_keeps (s : MemSubstrate) (obs : Option Exp.ExperienceRecord) :
    (s.observe obs).t3.records = s.t3.records ∧ unswept (s.observe obs) = unswept s := by
  cases obs with
  | none => exact ⟨rfl, rfl⟩
  | some r =>
      rw [observe, xpRecord_eq]
      exact ⟨rfl, rfl⟩

/-- Examining a position edits the record there, and nothing else that is not a log. -/
theorem sweepOne_spec (s : MemSubstrate) (idx : Nat) :
    (s.sweepOne idx).2.t3.records = s.t3.records.modify idx (MemRecord.swept s.clock) ∧
      unswept (s.sweepOne idx).2 = unswept s := by
  obtain ⟨hrecords, hrest⟩ := observe_keeps s (forgetDecision s.clock s.t3.records[idx]!).2
  have hget : ∀ r, s.t3.records[idx]? = some r → s.t3.records[idx]! = r := fun r hr => by
    rw [List.getElem!_eq_getElem?_getD, hr, Option.getD_some]
  rw [sweepOne]
  dsimp only
  by_cases hforget : (s.t3.records[idx]!).Forgettable s.clock
  · have hmodify : s.t3.records.modify idx (MemRecord.swept s.clock) = s.t3.records.modify idx MemRecord.demote :=
      Update.modify_congr fun r hr => if_pos (hget r hr ▸ hforget)
    rw [if_pos (forgetDecision_iff.2 hforget), hmodify, ledgerAppend_eq]
    exact ⟨congrArg (fun l : List MemRecord => l.modify idx MemRecord.demote) hrecords, hrest⟩
  · have hmodify : s.t3.records.modify idx (MemRecord.swept s.clock) = s.t3.records.modify idx id :=
      Update.modify_congr fun r hr => if_neg (hget r hr ▸ hforget)
    rw [if_neg (forgetDecision_iff.not.2 hforget), hmodify, List.modify_id]
    exact ⟨hrecords, hrest⟩

/-! ## One sweep -/

namespace MemSubstrate

/-- The substrates in which the turns of the loop examine a record, with its position. -/
def examinedFrom (len : Nat) : Nat → Nat → MemSubstrate → List (MemSubstrate × Nat)
  | 0, _, _ => []
  | budget + 1, idx, s => (s, idx) :: examinedFrom len budget ((idx + 1) % len) (s.sweepOne idx).2

/-- Turns of the loop, one for each entry: it examines that position of that substrate, and the
next turn starts from what it left. -/
inductive Turns : MemSubstrate → List (MemSubstrate × Nat) → MemSubstrate → Prop
  | done (s : MemSubstrate) : Turns s [] s
  | turn (s : MemSubstrate) (idx : Nat) {rest : List (MemSubstrate × Nat)} {s' : MemSubstrate} :
      Turns (s.sweepOne idx).2 rest s' → Turns s ((s, idx) :: rest) s'

/-- How many records the next sweep examines. -/
def sweepBudget (s : MemSubstrate) : Nat := min SWEEP_BATCH s.t3.records.length

/-- The examinations of the next sweep, in order. -/
def examinations (s : MemSubstrate) : List (MemSubstrate × Nat) :=
  examinedFrom s.t3.records.length s.sweepBudget (s.consolCursor % s.t3.records.length) s

end MemSubstrate

theorem examinedFrom_positions {len : Nat} : ∀ (budget idx : Nat) (s : MemSubstrate), idx < len →
    (examinedFrom len budget idx s).map Prod.snd = passed len idx budget
  | 0, _, _, _ => rfl
  | budget + 1, idx, s, hidx => by
    have hnext := examinedFrom_positions budget ((idx + 1) % len) (s.sweepOne idx).2
      (Nat.mod_lt _ (Nat.zero_lt_of_lt hidx))
    rw [examinedFrom, List.map_cons, hnext, passed_succ, Nat.mod_eq_of_lt hidx, passed_mod]

/-- The loop takes the turns that are listed. -/
theorem turns_sweepLoop {len : Nat} : ∀ (budget idx n : Nat) (s : MemSubstrate),
    Turns s (examinedFrom len budget idx s) (sweepLoop len budget idx n s).2
  | 0, _, _, s => .done s
  | budget + 1, idx, n, s =>
    .turn s idx (turns_sweepLoop budget ((idx + 1) % len) (n + (s.sweepOne idx).1) (s.sweepOne idx).2)

/-- The loop edits the positions it passes. -/
theorem sweepLoop_spec {len : Nat} : ∀ (budget idx n : Nat) (s : MemSubstrate), idx < len →
    (sweepLoop len budget idx n s).2.t3.records =
        (passed len idx budget).foldl (fun l i => l.modify i (MemRecord.swept s.clock)) s.t3.records ∧
      unswept (sweepLoop len budget idx n s).2 = unswept s
  | 0, _, _, _, _ => ⟨rfl, rfl⟩
  | budget + 1, idx, n, s, hidx => by
    obtain ⟨hone, hrest⟩ := sweepOne_spec s idx
    have hclock : (s.sweepOne idx).2.clock = s.clock := congrArg (fun p => p.2.2.1) hrest
    obtain ⟨hrecords, hkept⟩ := sweepLoop_spec budget ((idx + 1) % len) (n + (s.sweepOne idx).1)
      (s.sweepOne idx).2 (Nat.mod_lt _ (Nat.zero_lt_of_lt hidx))
    rw [hone, hclock, passed_mod] at hrecords
    rw [passed_succ, List.foldl_cons, Nat.mod_eq_of_lt hidx]
    exact ⟨hrecords, hkept.trans hrest⟩

/-- When examined a record is what the turns before have made of it. -/
theorem examinedFrom_state {len : Nat} {u : MemSubstrate} {i : Nat} : ∀ (budget idx : Nat) (s : MemSubstrate),
    idx < len → (u, i) ∈ examinedFrom len budget idx s →
    u.clock = s.clock ∧ ∃ pre post, passed len idx budget = pre ++ i :: post ∧
      u.t3.records = pre.foldl (fun l i => l.modify i (MemRecord.swept s.clock)) s.t3.records
  | budget + 1, idx, s, hidx, hmem => by
    have hmod := Nat.mod_eq_of_lt hidx
    rw [passed_succ, hmod]
    rcases List.mem_cons.1 hmem with heq | hmem
    · obtain ⟨rfl, rfl⟩ := Prod.mk.inj heq
      exact ⟨rfl, [], _, rfl, rfl⟩
    · obtain ⟨hone, hrest⟩ := sweepOne_spec s idx
      have hkeep : (s.sweepOne idx).2.clock = s.clock := congrArg (fun p => p.2.2.1) hrest
      obtain ⟨hclock, pre, post, hpassed, hrecords⟩ := examinedFrom_state budget ((idx + 1) % len)
        (s.sweepOne idx).2 (Nat.mod_lt _ (Nat.zero_lt_of_lt hidx)) hmem
      rw [hone, hkeep] at hrecords
      rw [passed_mod] at hpassed
      exact ⟨hclock.trans hkeep, idx :: pre, post, by rw [hpassed, List.cons_append], hrecords⟩

section Call

variable (s : MemSubstrate)

theorem examinations_positions :
    s.examinations.map Prod.snd = passed s.t3.records.length s.consolCursor s.sweepBudget := by
  rcases Nat.eq_zero_or_pos s.t3.records.length with hlen | hlen
  · rw [examinations, sweepBudget, hlen, Nat.min_zero]
    rfl
  · rw [examinations, examinedFrom_positions _ _ s (Nat.mod_lt _ hlen), passed_mod]

theorem nodup_positions : (passed s.t3.records.length s.consolCursor s.sweepBudget).Nodup :=
  nodup_passed (Nat.min_le_right _ _)

theorem budget_eq : (if SWEEP_BATCH < s.t3.records.length then SWEEP_BATCH else s.t3.records.length) =
    s.sweepBudget := by
  rw [sweepBudget]
  split <;> omega

/-- A sweep is its turns, and the hand moved. -/
theorem turns_forgetSweep : ∃ t, Turns s s.examinations t ∧
    s.forgetSweep.2 = { t with consolCursor := s.forgetSweep.2.consolCursor } := by
  rcases Nat.eq_zero_or_pos s.t3.records.length with hlen | hlen
  · refine ⟨s, ?_, ?_⟩
    · rw [examinations, sweepBudget, hlen, Nat.min_zero]
      exact .done s
    · rw [forgetSweep]
      dsimp only
      rw [if_pos hlen]
  · refine ⟨_, turns_sweepLoop s.sweepBudget (s.consolCursor % s.t3.records.length) 0 s, ?_⟩
    rw [forgetSweep]
    dsimp only
    rw [if_neg hlen.ne', budget_eq]

/-- A sweep edits the positions its examinations are at, and moves the hand past them. -/
theorem forgetSweep_spec :
    s.forgetSweep.2.t3.records = (passed s.t3.records.length s.consolCursor s.sweepBudget).foldl
        (fun l i => l.modify i (MemRecord.swept s.clock)) s.t3.records ∧
      unswept s.forgetSweep.2 = unswept s ∧
      s.forgetSweep.2.consolCursor % s.t3.records.length =
        (s.consolCursor + s.sweepBudget) % s.t3.records.length := by
  rcases Nat.eq_zero_or_pos s.t3.records.length with hlen | hlen
  · rw [forgetSweep, sweepBudget]
    dsimp only
    rw [if_pos hlen, hlen, Nat.min_zero]
    exact ⟨rfl, rfl, rfl⟩
  · obtain ⟨hrecords, hrest⟩ := sweepLoop_spec s.sweepBudget (s.consolCursor % s.t3.records.length) 0 s
      (Nat.mod_lt _ hlen)
    rw [passed_mod] at hrecords
    rw [forgetSweep]
    dsimp only
    rw [if_neg hlen.ne', budget_eq]
    exact ⟨hrecords, hrest, by rw [Nat.mod_mod, Nat.mod_add_mod]⟩

theorem length_forgetSweep : s.forgetSweep.2.t3.records.length = s.t3.records.length := by
  rw [(forgetSweep_spec s).1]
  exact Update.foldl_keeps (g := List.length) (fun _ _ => List.length_modify _ _ _) _ _

theorem getElem?_forgetSweep (i : Nat) : s.forgetSweep.2.t3.records[i]? =
    if i ∈ passed s.t3.records.length s.consolCursor s.sweepBudget then
      s.t3.records[i]?.map (MemRecord.swept s.clock)
    else s.t3.records[i]? := by
  rw [(forgetSweep_spec s).1, Update.getElem?_foldl_modify (nodup_positions s)]

/-- No turn of the sweep has touched the record it examines, nor the clock. -/
theorem examination_state {u : MemSubstrate} {i : Nat} (h : (u, i) ∈ s.examinations) :
    u.clock = s.clock ∧ u.t3.records[i]? = s.t3.records[i]? := by
  have hlen : 0 < s.t3.records.length := by
    refine Nat.pos_of_ne_zero fun hzero => ?_
    rw [examinations, sweepBudget, hzero, Nat.min_zero] at h
    exact nomatch h
  obtain ⟨hclock, pre, post, hpassed, hrecords⟩ := examinedFrom_state _ _ s (Nat.mod_lt _ hlen) h
  have hnodup := nodup_positions s
  rw [← passed_mod, hpassed, List.nodup_append'] at hnodup
  refine ⟨hclock, ?_⟩
  rw [hrecords, Update.getElem?_foldl_modify hnodup.1, if_neg]
  exact fun hi => hnodup.2.2 hi List.mem_cons_self

end Call

/-- One sweep: the examinations are the turns it takes, what is forgettable when examined is made
cold and no other field of it changes, every other record stays as it is, and a cold one cold. -/
structure Swept (s s' : MemSubstrate) : Prop where
  turns : ∃ t, Turns s s.examinations t ∧ s' = { t with consolCursor := s'.consolCursor }
  length : s'.t3.records.length = s.t3.records.length
  demoted : ∀ u i (r : MemRecord), (u, i) ∈ s.examinations → u.t3.records[i]? = some r → r.Forgettable u.clock →
    s'.t3.records[i]? = some { r with tier := .cold }
  spared : ∀ (i : Nat) (r : MemRecord), s.t3.records[i]? = some r → s'.t3.records[i]? = some r ∨
    s'.t3.records[i]? = some { r with tier := .cold } ∧
      ∃ u, (u, i) ∈ s.examinations ∧ u.t3.records[i]? = some r ∧ r.Forgettable u.clock
  cold : ∀ (i : Nat) (r : MemRecord), s.t3.records[i]? = some r → r.tier = .cold → s'.t3.records[i]? = some r
  journal : s'.t2 = s.t2

/-- A record is left as it was, or was forgettable when examined and is cold. -/
theorem spared_forgetSweep (s : MemSubstrate) {i : Nat} {r : MemRecord} (hr : s.t3.records[i]? = some r) :
    s.forgetSweep.2.t3.records[i]? = some r ∨ s.forgetSweep.2.t3.records[i]? = some { r with tier := .cold } ∧
      ∃ u, (u, i) ∈ s.examinations ∧ u.t3.records[i]? = some r ∧ r.Forgettable u.clock := by
  rw [getElem?_forgetSweep, hr]
  split_ifs with hi
  · rw [Option.map_some, MemRecord.swept]
    split_ifs with hforget
    · rw [← examinations_positions] at hi
      obtain ⟨⟨u, i⟩, hmem, rfl⟩ := List.mem_map.1 hi
      obtain ⟨hclock, hrecord⟩ := examination_state s hmem
      exact .inr ⟨rfl, u, hmem, hrecord.trans hr, hclock ▸ hforget⟩
    · exact .inl rfl
  · exact .inl rfl

theorem swept_forgetSweep (s : MemSubstrate) : Swept s s.forgetSweep.2 where
  turns := turns_forgetSweep s
  length := length_forgetSweep s
  demoted u i r hmem hr hforget := by
    obtain ⟨hclock, hrecord⟩ := examination_state s hmem
    have hi : i ∈ passed s.t3.records.length s.consolCursor s.sweepBudget :=
      examinations_positions s ▸ List.mem_map_of_mem hmem
    rw [hclock] at hforget
    rw [getElem?_forgetSweep, if_pos hi, ← hrecord, hr, Option.map_some, MemRecord.swept, if_pos hforget]
    rfl
  spared i r hr := spared_forgetSweep s hr
  cold i r hr hcold := by
    rcases spared_forgetSweep s hr with hsame | ⟨-, u, -, -, hforget⟩
    · exact hsame
    · exact absurd (hforget.2.1.symm.trans hcold) (by decide)
  journal := congrArg Prod.fst (forgetSweep_spec s).2.1

/-! ## Runs -/

namespace MemSubstrate

/-- The substrates from which an operation sweeps: the cycle does so after it has distilled and
reflected. -/
def sweepsOf (s : MemSubstrate) : Op → List MemSubstrate
  | .consolidate op _ _ _ =>
      if op.toNat = 3 then [(s.distill.2.reflectInner 0).2] else if op.toNat = 5 then [s] else []
  | _ => []

/-- The sweeps of a run, each by the substrate it starts from. -/
def sweeps : MemSubstrate → List Op → List MemSubstrate
  | _, [] => []
  | s, op :: ops => s.sweepsOf op ++ sweeps (step s op) ops

/-- The positions examined in a run, in order. -/
def examined (s : MemSubstrate) (ops : List Op) : List Nat :=
  (s.sweeps ops).flatMap fun t => t.examinations.map Prod.snd

end MemSubstrate

theorem cursor_of_core {s s' : MemSubstrate} (h : core s' = core s) : s'.consolCursor = s.consolCursor :=
  congrArg (fun c => c.2.2.2) h

theorem cursor_pushRecord (s : MemSubstrate) (token value : BitVec 64) (importance : Nat)
    (provenance : Provenance) (links : List (UInt8 × BitVec 64)) :
    (s.pushRecord token value importance provenance links).2.consolCursor = s.consolCursor := by
  rw [pushRecord]
  split <;> rfl

theorem cursor_pushed {s t : MemSubstrate} {token value : BitVec 64} {importance : Nat}
    {provenance : Provenance} {links : List (UInt8 × BitVec 64)} {id : Option (BitVec 64)}
    (h : s.pushRecord token value importance provenance links = (id, t)) : t.consolCursor = s.consolCursor := by
  have hpush := cursor_pushRecord s token value importance provenance links
  rw [h] at hpush
  exact hpush

theorem cursor_delete (s : MemSubstrate) (key : BitVec 64) :
    (s.delete key).2.consolCursor = s.consolCursor := by
  rw [delete]
  dsimp only
  split <;> rfl

theorem cursor_write (s : MemSubstrate) (op key value packed : BitVec 64) :
    (s.write op key value packed).2.consolCursor = s.consolCursor := by
  have hstore : (if op = 0 ∨ op = 1 then s.add key value packed
      else if op = 2 then s.delete key else (some 0, s)).2.consolCursor = s.consolCursor := by
    split
    · exact cursor_pushRecord (s.accrue _) key value _ .episodic []
    · split
      · exact cursor_delete s key
      · rfl
  rw [write]
  dsimp only
  split
  · exact hstore
  · split
    · exact (cursor_of_core (core_ledgerAppend _ _ _ _ _ _)).trans hstore
    · exact hstore

theorem cursor_serve (s : MemSubstrate) (query : BitVec 64) (widx : Nat) :
    (s.serve query widx).2.consolCursor = s.consolCursor := by
  rw [serve]
  dsimp only
  rw [xpRecord_eq]
  rfl

theorem cursor_retrieve (s : MemSubstrate) (query : BitVec 64) :
    (s.retrieve query).2.consolCursor = s.consolCursor := by
  rw [retrieve]
  split
  · rfl
  · dsimp only
    split
    · rfl
    · exact cursor_serve s query _

theorem cursor_mergeCluster (s : MemSubstrate) (c : Nat × List Nat) :
    (mergeCluster s c).consolCursor = s.consolCursor := by
  have hlosers : (c.2.foldl (mergeLoser c.1) s).consolCursor = s.consolCursor :=
    Update.foldl_keeps (g := consolCursor) (f := mergeLoser c.1) (fun _ _ => rfl) c.2 s
  exact (cursor_of_core (core_mergeCluster s c)).trans hlosers

theorem cursor_distill (s : MemSubstrate) : s.distill.2.consolCursor = s.consolCursor := by
  have hplan : (s.distillPlan.foldl mergeCluster s).consolCursor = s.consolCursor :=
    Update.foldl_keeps cursor_mergeCluster _ s
  rw [distill]
  dsimp only
  split <;> exact hplan

theorem cursor_reflectInner (s : MemSubstrate) (modelToken : BitVec 64) :
    (s.reflectInner modelToken).2.consolCursor = s.consolCursor := by
  rw [reflectInner]
  dsimp only
  split
  · rfl
  · split
    · next t hpush => exact cursor_pushed hpush
    · next newId t hpush =>
        have hpushed := cursor_pushed hpush
        exact (cursor_of_core (core_corpusEmit (t.withRecords _) _ _ _ _ _ _)).trans hpushed

theorem cursor_skillAddClass (s : MemSubstrate) (body desc packed : BitVec 64) (prov : UInt8) :
    (s.skillAddClass body desc packed prov).2.consolCursor = s.consolCursor := by
  rw [skillAddClass]
  split
  · rfl
  · exact congrArg (fun c => c.2.2.2) (core_ledgerAppend _ _ _ _ _ _)

theorem cursor_writeProc (s : MemSubstrate) (op a b c : BitVec 64) :
    (s.writeProc op a b c).2.consolCursor = s.consolCursor := by
  rw [writeProc]
  split
  case h_1 => exact cursor_skillAddClass s a b c 0
  case h_6 => exact cursor_skillAddClass s a b c SKILL_PROV_EMIT_EXTERNAL
  case h_2 =>
      rw [skillBumpUtil]
      split <;> rfl
  case h_4 =>
      rw [skillLink]
      split <;> rfl
  all_goals rfl

/-- Only a sweep moves the hand. -/
theorem cursor_step {s : MemSubstrate} : ∀ op : Op, s.sweepsOf op = [] →
    (step s op).consolCursor = s.consolCursor
  | .write op key value packed, _ => cursor_write s op key value packed
  | .readTouch id, _ => by
    rw [step, readTouch]
    split
    · rfl
    · exact cursor_of_core (core_xpRecord s _)
  | .tbRecall query cursor k weights, _ => by
    rw [step, tbRecall, cursor_retrieve]
    split <;> rfl
  | .consolidate op a b c, h => by
    rw [sweepsOf] at h
    rw [step, consolidate]
    split
    case h_4 hop => simp [hop] at h
    case h_6 hop => simp [hop] at h
    case h_5 => exact cursor_reflectInner s a
    case h_9 => split <;> rfl
    all_goals rfl
  | .writeProc op a b c, _ => cursor_writeProc s op a b c
  | .seedHeldout target base n, _ => Update.foldl_keeps (fun s _ => cursor_pushRecord s _ _ 5 .episodic []) _ s
  | .skillAdmit id score, _ => by
    rw [step, skillAdmit]
    split
    · rfl
    · dsimp only
      split <;> rfl
  | .corpusEmitOperatorTurn .., _ => cursor_of_core (core_corpusEmit s _ _ _ _ _ _)
  | .corpusEmitLabeledOutcome .., _ => cursor_of_core (core_corpusEmit s _ _ _ _ _ _)

theorem cursor_settle (s : MemSubstrate) : s.settle.consolCursor = s.consolCursor := rfl

theorem step_cycle (s : MemSubstrate) {op : BitVec 64} (hop : op.toNat = 3) (a b c : BitVec 64) :
    step s (.consolidate op a b c) = (s.distill.2.reflectInner 0).2.forgetSweep.2.settle := by
  rw [step, consolidate, hop]
  rfl

theorem step_sweep (s : MemSubstrate) {op : BitVec 64} (hop : op.toNat = 5) (a b c : BitVec 64) :
    step s (.consolidate op a b c) = s.forgetSweep.2 := by
  rw [step, consolidate, hop]
  rfl

/-- The operation adds no record. -/
def AddsNone (s : MemSubstrate) (op : Op) : Prop :=
  (step s op).t3.records.length = s.t3.records.length

/-- An operation that adds no record sweeps at most once, and from the hand where it found it. -/
theorem sweepsOf_cases {s : MemSubstrate} {op : Op} (h : AddsNone s op) :
    s.sweepsOf op = [] ∨ ∃ t, s.sweepsOf op = [t] ∧ t.t3.records.length = s.t3.records.length ∧
      t.consolCursor = s.consolCursor ∧ (step s op).consolCursor = t.forgetSweep.2.consolCursor := by
  cases op with
  | consolidate op a b c =>
      rw [sweepsOf]
      split_ifs with hcycle hsweep
      · rw [AddsNone, step_cycle s hcycle, (settle_keeps _).1, length_forgetSweep] at h
        refine .inr ⟨_, rfl, h, (cursor_reflectInner _ 0).trans (cursor_distill s), ?_⟩
        rw [step_cycle s hcycle, cursor_settle]
      · exact .inr ⟨s, rfl, rfl, rfl, by rw [step_sweep s hsweep]⟩
      · exact .inl rfl
  | _ => exact .inl rfl

/-- Along a run that adds no record the hand goes around the store, a batch in each sweep. -/
theorem examined_eq : ∀ (ops : List Op) (s : MemSubstrate), Guarded step AddsNone s ops →
    s.examined ops = passed s.t3.records.length s.consolCursor (s.sweepBudget * (s.sweeps ops).length)
  | [], _, _ => rfl
  | op :: ops, s, ⟨hop, hops⟩ => by
    have hrest := examined_eq ops (step s op) hops
    have hbudget : (step s op).sweepBudget = s.sweepBudget := congrArg (min SWEEP_BATCH) hop
    rw [show (step s op).t3.records.length = _ from hop, hbudget] at hrest
    rw [examined, sweeps, List.flatMap_append, List.length_append, Nat.mul_add, passed_append]
    rcases sweepsOf_cases hop with hnone | ⟨t, hone, hlen, hcursor, hhand⟩
    · rw [cursor_step op hnone] at hrest
      rw [hnone]
      exact hrest
    · have hbatch : t.sweepBudget = s.sweepBudget := congrArg (min SWEEP_BATCH) hlen
      have hmoved := (forgetSweep_spec t).2.2
      have hpositions := examinations_positions t
      rw [hlen, hcursor, hbatch] at hmoved hpositions
      rw [← passed_mod, hhand, hmoved, passed_mod] at hrest
      rw [hone, List.flatMap_singleton, List.length_singleton, Nat.mul_one, hpositions]
      exact congrArg _ hrest

/-- An operation that sweeps leaves what its sweep leaves, settled after a cycle. -/
theorem step_of_sweep {s t : MemSubstrate} {op : Op} (h : t ∈ s.sweepsOf op) :
    step s op = t.forgetSweep.2 ∨ step s op = t.forgetSweep.2.settle := by
  cases op with
  | consolidate op a b c =>
      rw [sweepsOf] at h
      split_ifs at h with hcycle hsweep
      · rw [List.mem_singleton] at h
        subst h
        exact .inr (step_cycle s hcycle a b c)
      · rw [List.mem_singleton] at h
        subst h
        exact .inl (step_sweep t hsweep a b c)
      · cases h
  | _ => cases h

/-- Over `⌈len / SWEEP_BATCH⌉` sweeps without a record added in between, whatever else is done
there, every position is examined, and none again before all are.  The sweeps are what the
operations end with; each makes cold exactly what is forgettable when examined, and changes
nothing else of the records or the journal. -/
theorem sweeps_cover_and_spare (s : MemSubstrate) (ops : List Op) (hops : Guarded step AddsNone s ops) :
    (s.t3.records.length ⌈/⌉ SWEEP_BATCH ≤ (s.sweeps ops).length →
      ∀ i < s.t3.records.length, i ∈ s.examined ops) ∧
    (∀ pre i post, s.examined ops = pre ++ i :: post → i ∈ pre → ∀ j < s.t3.records.length, j ∈ pre) ∧
    (∀ pre op post, ops = pre ++ op :: post → ∀ t ∈ (exec step s pre).sweepsOf op,
      step (exec step s pre) op = t.forgetSweep.2 ∨ step (exec step s pre) op = t.forgetSweep.2.settle) ∧
    ∀ t ∈ s.sweeps ops, Swept t t.forgetSweep.2 := by
  rw [examined_eq ops s hops]
  refine ⟨fun hcalls i hi => mem_passed ?_ hi, fun pre i post hsplit hi j hj => passed_again hsplit hi hj,
    fun _ _ _ _ t ht => step_of_sweep ht, fun t _ => swept_forgetSweep t⟩
  have hcover : s.t3.records.length ≤ SWEEP_BATCH * (s.sweeps ops).length := by
    exact (ceilDiv_le_iff_le_mul (by decide)).1 hcalls
  rw [sweepBudget, Nat.min_def]
  split_ifs with hfull
  · exact hcover
  · exact Nat.le_mul_of_pos_right _ (Nat.pos_of_mul_pos_left (hcover.trans_lt' (Nat.zero_lt_of_lt hi)))

/-- Two records under a hand that stands at the second, which nobody has read for long. -/
def pair : MemSubstrate :=
  { new.withRecords [MemRecord.fresh 0 7 9 4000 .episodic [], MemRecord.fresh 1 8 1 2 .episodic []] with
    clock := 4000, consolCursor := 5 }

/-- One sweep examines both, the second first, and makes that one cold. -/
theorem pair_covered : (∀ i < 2, i ∈ pair.examined [.consolidate 5 0 0 0]) ∧ Swept pair pair.forgetSweep.2 ∧
    step pair (.consolidate 5 0 0 0) = pair.forgetSweep.2 ∧
    pair.forgetSweep.2.t3.records[1]? = some { MemRecord.fresh 1 8 1 2 .episodic [] with tier := .cold } := by
  have hrun : Guarded step AddsNone pair [.consolidate 5 0 0 0] :=
    ⟨by rw [AddsNone, step_sweep pair rfl, length_forgetSweep], trivial⟩
  obtain ⟨hcover, -, -, hswept⟩ := sweeps_cover_and_spare pair [.consolidate 5 0 0 0] hrun
  have hpair := hswept pair List.mem_cons_self
  exact ⟨hcover (by decide), hpair, step_sweep pair rfl 0 0 0,
    hpair.demoted pair 1 _ List.mem_cons_self rfl (by decide)⟩

end Yuva.Mem
