/-
# `Yuva.Conduct.Selftest` — what the kernel demands of the loop

`conductor_selftest` (`tb-hal/src/mem/organ/selftests.rs`) runs the conductor over the scores the
kernel hands it, one a round, and a round without a score gets one no floor can be beaten by.  It
counts organs, revisions and turns as it goes, folds the decisions a second time, and flips one bit
of the first one.  The kernel lets the boot go on only if all of that came out as it wants.

    gate        accepted · refolded · included · tamper caught · 2 organs · 1 revision · few turns

**Proved here.**  Over any scores at all, each field of the proof is what the first two scores say
(`selftest_eq`), and the gate opens exactly when the first does not beat the floor by the margin
and the second does: the flipped bit then shows in the hashes, which is worked out once, for the
one trace there is (`tamper_shows`).  The kernel's own scores are such exactly when the local organ
answered with something (`conductor_gate`).
-/
import Yuva.Conduct.Policy
import Yuva.Hash.Feed

namespace Yuva.Conduct

open Yuva.Bytes Yuva.Hash

/-! ## The self-test -/

def CONDUCTOR_MAX_STEPS : Nat := 8
def CONDUCTOR_SCORE_FLOOR : Int64 := 100

/-- The organs of the schedule: the thinker reads memory, the others go on to the next organ
with every round. -/
def schedule (role : Role) (round : BitVec 8) : Organ :=
  match role with
  | .thinker => selectOrgan 0
  | .worker => selectOrgan (1 + round.toNat)
  | .verifier => selectOrgan (1 + round.toNat)

/-- The score of a round; past the end, half the least number. -/
def workerScore (workerScores : List Int64) (round : BitVec 8) : Int64 :=
  workerScores.getD round.toNat (Int64.minValue / 2)

/-- What the loop counts as it goes. -/
structure Tally where
  seen : Vector Bool 3
  reviseCycles : Nat
  accepted : Bool
  acceptAt : Nat
deriving DecidableEq

def Tally.note (t : Tally) (s : TraceStep) : Tally :=
  { seen := t.seen.setIfInBounds s.organ.tag.toNat true
    reviseCycles := if s.role = .verifier ∧ s.verdict = .revise then t.reviseCycles + 1 else t.reviseCycles
    accepted := if s.verdict = .accept then true else t.accepted
    acceptAt := if s.verdict = .accept then s.turn.toNat else t.acceptAt }

def tallyOf (trace : List TraceStep) : Tally := trace.foldl Tally.note ⟨#v[false, false, false], 0, false, 0⟩

structure ConductorProof where
  cleanOk : Bool
  inclusionOk : Bool
  tamperCaught : Bool
  accepted : Bool
  organs : Nat
  reviseCycles : Nat
  turns : Nat
  acceptAt : Nat
  organCalls : Nat
  head : BitVec 64
  records : Nat
  steps : Vector ConductDecision 8

/-- A step that was never filled in. -/
def blankStep : ConductDecision := ⟨0, 0, 0, 0, 0, 0⟩

/-- `tampered[3] ^= 0x01`: the lowest bit of the verdict. -/
def flipVerdict (bytes : List UInt8) : List UInt8 := bytes.modify OFF_VERDICT (· ^^^ 0x01)

/-- The first decision is changed: a new id, another head, and no proof of inclusion. -/
def tamperCaught (trace : List TraceStep) (policyHead : Bytes32) : Bool :=
  match trace with
  | [] => false
  | s :: rest =>
      let bad := Mem.Prov.provHash (flipVerdict (row s.decision))
      bad ≠ decisionId s.decision && Mem.Prov.recompute bad (idsOf rest) ≠ policyHead &&
        !Mem.Prov.verifyInclusion bad (idsOf rest) policyHead

/-- The ids folded again from the first one: the head, and the proof that it is in it. -/
def refolded (trace : List TraceStep) (policyHead : Bytes32) : Bool × Bool :=
  match idsOf trace with
  | [] => (false, false)
  | leaf :: siblings =>
      (Mem.Prov.recompute leaf siblings == policyHead, Mem.Prov.verifyInclusion leaf siblings policyHead)

/-- `conductor_selftest`.  The loop cannot outrun the buffer of the steps. -/
def conductorSelftest (workerScores : List Int64) : ConductorProof :=
  let l := (Loop.start.run schedule (workerScore workerScores) CONDUCTOR_SCORE_FLOOR VERDICT_MARGIN
    CONDUCTOR_MAX_STEPS).1
  let t := tallyOf l.trace
  let (cleanOk, inclusionOk) := refolded l.trace l.policyHead
  { cleanOk := cleanOk
    inclusionOk := inclusionOk
    tamperCaught := tamperCaught l.trace l.policyHead
    accepted := t.accepted
    organs := t.seen.toList.count true
    reviseCycles := t.reviseCycles
    turns := (l.trace.getLast?.map fun s => s.turn.toNat + 1).getD 0
    acceptAt := t.acceptAt
    organCalls := l.organCalls.toNat
    head := Mem.Prov.headWitness l.policyHead
    records := l.trace.length
    steps := .ofFn fun i => (l.trace.map TraceStep.decision).getD i blankStep }

/-! ## The kernel -/

/-- What the kernel demands. -/
def gate (cp : ConductorProof) : Bool :=
  cp.accepted && cp.cleanOk && cp.inclusionOk && cp.tamperCaught && 2 ≤ cp.organs && 1 ≤ cp.reviseCycles &&
    cp.turns ≤ CONDUCTOR_MAX_STEPS

/-- The kernel's scores: the organ that answers makes the second one better. -/
def kernelScores (m32LocalReceived : Bool) (m32LocalRespLen respLen : BitVec 64) : List Int64 :=
  let contextStrength : Int64 := 200
  let localOrganLen := if m32LocalReceived then m32LocalRespLen else respLen
  let refinement : Int64 := if localOrganLen > 0 then 200 else 0
  [contextStrength, contextStrength + refinement]

/-! ## Every proof -/

/-- Whether the score of a round is good enough. -/
abbrev Passes (workerScores : List Int64) (k : BitVec 8) : Prop :=
  Clears (workerScore workerScores k) CONDUCTOR_SCORE_FLOOR VERDICT_MARGIN

/-- The trace of the self-test. -/
def selftestTrace (workerScores : List Int64) : List TraceStep :=
  traceOf schedule (workerScore workerScores) CONDUCTOR_SCORE_FLOOR VERDICT_MARGIN

/-- A head folded again is the head. -/
theorem refolded_eq {trace : List TraceStep} (h : trace ≠ []) :
    refolded trace (Mem.Prov.headOf (idsOf trace)) = (true, true) := by
  obtain ⟨s, rest, rfl⟩ := List.exists_cons_of_ne_nil h
  exact Prod.ext (beq_self_eq_true _) (beq_self_eq_true _)

/-- The loop of the self-test. -/
theorem selftest_run (ws : List Int64) :
    let l := (Loop.start.run schedule (workerScore ws) CONDUCTOR_SCORE_FLOOR VERDICT_MARGIN CONDUCTOR_MAX_STEPS).1
    l.trace = selftestTrace ws ∧ l.policyHead = Mem.Prov.headOf (idsOf (selftestTrace ws)) ∧
      l.organCalls = if Passes ws 0 then 1 else 2 := by
  obtain ⟨-, htrace, hcalls⟩ :=
    run_eq schedule (workerScore ws) CONDUCTOR_SCORE_FLOOR VERDICT_MARGIN 2
  have hhead := head_run schedule (workerScore ws) CONDUCTOR_SCORE_FLOOR VERDICT_MARGIN CONDUCTOR_MAX_STEPS
    (l := Loop.start) rfl
  have htrace' : (Loop.start.run schedule (workerScore ws) CONDUCTOR_SCORE_FLOOR VERDICT_MARGIN
      CONDUCTOR_MAX_STEPS).1.trace = selftestTrace ws := htrace
  exact ⟨htrace', htrace' ▸ hhead, hcalls⟩

/-- The three traces of the self-test, by what the first two scores say. -/
theorem selftestTrace_cases (ws : List Int64) :
    (Passes ws 0 ∧ selftestTrace ws = round schedule 0 0 0 .accept) ∨
      (¬Passes ws 0 ∧ Passes ws 1 ∧
        selftestTrace ws = round schedule 0 0 0 .revise ++ round schedule 3 1 1 .accept) ∨
      (¬Passes ws 0 ∧ ¬Passes ws 1 ∧
        selftestTrace ws = round schedule 0 0 0 .revise ++ round schedule 3 1 1 .revise) := by
  rw [selftestTrace, traceOf]
  by_cases hfirst : Passes ws 0
  · exact .inl ⟨hfirst, if_pos hfirst⟩
  · by_cases hsecond : Passes ws 1
    · exact .inr (.inl ⟨hfirst, hsecond, by rw [if_neg hfirst, if_pos hsecond]⟩)
    · exact .inr (.inr ⟨hfirst, hsecond, by rw [if_neg hfirst, if_neg hsecond]⟩)

/-- Each field of the proof is what the first two scores say; the fold and the inclusion never
fail. -/
theorem selftest_eq (ws : List Int64) :
    let cp := conductorSelftest ws
    cp.cleanOk = true ∧ cp.inclusionOk = true ∧ (cp.accepted = true ↔ Passes ws 0 ∨ Passes ws 1) ∧
      cp.organs = (if Passes ws 0 then 2 else 3) ∧
      cp.reviseCycles = (if Passes ws 0 then 0 else if Passes ws 1 then 1 else 2) ∧
      cp.turns = (if Passes ws 0 then 3 else 6) ∧ cp.records = cp.turns ∧
      cp.acceptAt = (if Passes ws 0 then 2 else if Passes ws 1 then 5 else 0) ∧
      cp.organCalls = (if Passes ws 0 then 1 else 2) ∧
      cp.head = Mem.Prov.headWitness (Mem.Prov.headOf (idsOf (selftestTrace ws))) := by
  obtain ⟨htrace, hhead, hcalls⟩ := selftest_run ws
  have hne : selftestTrace ws ≠ [] := by
    rcases selftestTrace_cases ws with ⟨-, heq⟩ | ⟨-, -, heq⟩ | ⟨-, -, heq⟩ <;> rw [heq] <;> decide
  simp only [conductorSelftest, htrace, hhead, hcalls, refolded_eq hne, true_and]
  rcases selftestTrace_cases ws with ⟨hfirst, heq⟩ | ⟨hfirst, hsecond, heq⟩ | ⟨hfirst, hsecond, heq⟩
  · have htally : tallyOf (selftestTrace ws) = ⟨#v[true, true, false], 0, true, 2⟩ := by rw [heq]; decide
    have hlast : (selftestTrace ws).getLast?.map (fun s => s.turn.toNat + 1) = some 3 := by rw [heq]; rfl
    have hlen : (selftestTrace ws).length = 3 := by rw [heq]; rfl
    simp only [htally, hlast, hlen, hfirst, if_true, true_or]
    decide
  · have htally : tallyOf (selftestTrace ws) = ⟨#v[true, true, true], 1, true, 5⟩ := by rw [heq]; decide
    have hlast : (selftestTrace ws).getLast?.map (fun s => s.turn.toNat + 1) = some 6 := by rw [heq]; rfl
    have hlen : (selftestTrace ws).length = 6 := by rw [heq]; rfl
    simp only [htally, hlast, hlen, hfirst, hsecond, if_true, if_false]
    decide
  · have htally : tallyOf (selftestTrace ws) = ⟨#v[true, true, true], 2, false, 0⟩ := by rw [heq]; decide
    have hlast : (selftestTrace ws).getLast?.map (fun s => s.turn.toNat + 1) = some 6 := by rw [heq]; rfl
    have hlen : (selftestTrace ws).length = 6 := by rw [heq]; rfl
    simp only [htally, hlast, hlen, hfirst, hsecond, if_false]
    decide

/-! ## The flipped bit -/

/-- The fold over a trace whose first decision has these bytes, in the hash of RFC 7693. -/
def foldRows (first : List UInt8) (rest : List TraceStep) : Bytes32 :=
  (first :: rest.map fun s => row s.decision).foldl
    (fun head bytes => rfcDigest none (Mem.Prov.MIX_DOMAIN :: (head.val ++ (rfcDigest none bytes).val)))
    Mem.Prov.genesis

theorem recompute_eq (first : List UInt8) (rest : List TraceStep) :
    Mem.Prov.recompute (Mem.Prov.provHash first) (idsOf rest) = foldRows first rest := by
  rw [foldRows, ← Mem.Prov.provHash_eq_rfc, Mem.Prov.recompute, idsOf, List.foldl_map, List.foldl_cons, List.foldl_map]
  rfl

/-- Another head is another id and no inclusion. -/
theorem tamperCaught_of_ne {s : TraceStep} {rest : List TraceStep}
    (h : foldRows (flipVerdict (row s.decision)) rest ≠ foldRows (row s.decision) rest) :
    tamperCaught (s :: rest) (Mem.Prov.headOf (idsOf (s :: rest))) = true := by
  have hhead : Mem.Prov.recompute (Mem.Prov.provHash (flipVerdict (row s.decision))) (idsOf rest) ≠
      Mem.Prov.headOf (idsOf (s :: rest)) := by
    intro heq
    rw [← recompute_eq, ← recompute_eq] at h
    exact h heq
  have hid : Mem.Prov.provHash (flipVerdict (row s.decision)) ≠ decisionId s.decision := by
    intro heq
    rw [heq] at hhead
    exact hhead rfl
  have hnot : Mem.Prov.verifyInclusion (Mem.Prov.provHash (flipVerdict (row s.decision))) (idsOf rest)
      (Mem.Prov.headOf (idsOf (s :: rest))) = false := beq_eq_false_iff_ne.mpr hhead
  simp only [tamperCaught, hid, hhead, hnot, ne_eq, not_false_eq_true, decide_true, Bool.not_false, Bool.and_self]

/-- The one trace that the gate can let through: its first step, and the others. -/
def firstStep : TraceStep := ⟨0, .thinker, schedule .thinker 0, .revise, 0, .ofNat 64 0⟩
def laterSteps : List TraceStep := (round schedule 0 0 0 .revise).tail ++ round schedule 3 1 1 .accept

theorem revised_eq : round schedule 0 0 0 .revise ++ round schedule 3 1 1 .accept = firstStep :: laterSteps := rfl

-- Six digests each; a byte is enough to tell the heads apart.
theorem clean_head : (foldRows (row firstStep.decision) laterSteps).val.head? = some 0x35 := by decide +kernel

theorem flipped_head : (foldRows (flipVerdict (row firstStep.decision)) laterSteps).val.head? ≠ some 0x35 := by
  decide +kernel

/-- The flipped bit shows in it. -/
theorem tamper_shows :
    tamperCaught (firstStep :: laterSteps) (Mem.Prov.headOf (idsOf (firstStep :: laterSteps))) = true := by
  refine tamperCaught_of_ne fun heq => flipped_head ?_
  rw [heq, clean_head]

/-! ## The gate -/

/-- The gate opens for a revision that an acceptance followed. -/
theorem gate_opens (ws : List Int64) :
    gate (conductorSelftest ws) = true ↔ ¬Passes ws 0 ∧ Passes ws 1 := by
  obtain ⟨hclean, hincl, haccept, horgans, hrevise, hturns, -⟩ := selftest_eq ws
  rw [gate]
  simp only [Bool.and_eq_true, decide_eq_true_eq, hclean, hincl, haccept, horgans, hrevise, hturns]
  by_cases hfirst : Passes ws 0
  · have hnone : ¬1 ≤ 0 := by decide
    simp only [hfirst, if_true, hnone, not_true, and_false, false_and]
  · by_cases hsecond : Passes ws 1
    · have hturns : 6 ≤ CONDUCTOR_MAX_STEPS := by decide
      have htamper : (conductorSelftest ws).tamperCaught = true := by
        obtain ⟨htrace, hhead, -⟩ := selftest_run ws
        simp only [conductorSelftest, htrace, hhead, selftestTrace, traceOf]
        rw [if_neg hfirst, if_pos hsecond, revised_eq]
        exact tamper_shows
      simp only [hfirst, hsecond, htamper, if_true, if_false, hturns, Nat.reduceLeDiff, le_refl, false_or,
        not_false_eq_true, and_true]
    · simp only [hfirst, hsecond, or_self, false_and, and_false]

/-- The kernel's own scores: the organ that was asked answered with something. -/
theorem kernel_gate_opens (m32LocalReceived : Bool) (m32LocalRespLen respLen : BitVec 64) :
    gate (conductorSelftest (kernelScores m32LocalReceived m32LocalRespLen respLen)) = true ↔
      (if m32LocalReceived then m32LocalRespLen else respLen) ≠ 0 := by
  rw [gate_opens]
  have hfirst : ¬Passes (kernelScores m32LocalReceived m32LocalRespLen respLen) 0 := by
    show ¬Clears 200 CONDUCTOR_SCORE_FLOOR VERDICT_MARGIN
    decide
  have hsecond : Passes (kernelScores m32LocalReceived m32LocalRespLen respLen) 1 ↔
      (if m32LocalReceived then m32LocalRespLen else respLen) ≠ 0 := by
    show Clears (200 + if (if m32LocalReceived then m32LocalRespLen else respLen) > 0 then 200 else 0)
      CONDUCTOR_SCORE_FLOOR VERDICT_MARGIN ↔ _
    generalize (if m32LocalReceived then m32LocalRespLen else respLen) = len
    by_cases hlen : len > 0
    · rw [if_pos hlen]
      exact iff_of_true (by decide) ((BitVec.pos_iff_ne_zero len).mp hlen)
    · rw [if_neg hlen]
      exact iff_of_false (by decide) fun hne => hlen ((BitVec.pos_iff_ne_zero len).mpr hne)
  simp only [hfirst, hsecond, not_false_eq_true, true_and]

/-- **The gate wants a revision and then an acceptance.**  Over any scores at all it opens exactly
when the first does not beat the floor by the margin and the second does; over the kernel's scores,
exactly when the organ that was asked answered with something. -/
theorem conductor_gate :
    (∀ ws, gate (conductorSelftest ws) = true ↔ ¬Passes ws 0 ∧ Passes ws 1) ∧
    ∀ m32LocalReceived m32LocalRespLen respLen,
      gate (conductorSelftest (kernelScores m32LocalReceived m32LocalRespLen respLen)) = true ↔
        (if m32LocalReceived then m32LocalRespLen else respLen) ≠ 0 :=
  ⟨gate_opens, kernel_gate_opens⟩

end Yuva.Conduct
