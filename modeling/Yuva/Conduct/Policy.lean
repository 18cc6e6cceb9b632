/-
# `Yuva.Conduct.Policy` — three roles, three organs, two rounds

The conductor (`tb-encode/src/conductor.rs`) hands a task round between three roles: a turn's role
is its number modulo three, and only the third, the verifier, can accept.  It accepts a score that
beats the floor by the margin; what it does not accept starts the next round.  The turns are
bounded by `MAX_TURNS`.

The loop over it is written twice, once in the kernel's self-test and once in the host tool, with
their own organs and scores; here it is one loop over any choice of them (`Loop.turnOnce`).

    a round   thinker · worker · verifier     the worker calls an organ
    round 0   accepted, or revised
    round 1   accepted, or out of turns

**Proved here.**  Whatever the organs and the scores are, the loop ends after one round or two, and
what it records is one of three traces (`run_eq`).  `HaltBudget` is the policy's third verdict, but
the action that carries it ends the loop and the verdict of that turn has been recorded before: no
trace contains it.
-/
import Yuva.Mem.Chains
import Yuva.Telemetry.Records

namespace Yuva.Conduct

open Yuva.Bytes Yuva.Hash Yuva.Machine

/-! ## Tags -/

inductive Role where
  | thinker
  | worker
  | verifier
deriving DecidableEq, Repr

inductive Organ where
  | retrievalOverMemory
  | localM32
  | externalMock
deriving DecidableEq, Repr

inductive Verdict where
  | accept
  | revise
  | haltBudget
deriving DecidableEq, Repr

def Role.tag : Role → UInt8
  | .thinker => 0
  | .worker => 1
  | .verifier => 2

def N_ORGANS : Nat := 3

namespace Organ

def tag : Organ → UInt8
  | .retrievalOverMemory => 0
  | .localM32 => 1
  | .externalMock => 2

/-- `Organ::at`. -/
def atIndex : Nat → Option Organ
  | 0 => some .retrievalOverMemory
  | 1 => some .localM32
  | 2 => some .externalMock
  | _ => none

end Organ

def Verdict.tag : Verdict → UInt8
  | .accept => 0
  | .revise => 1
  | .haltBudget => 2

/-! ## The policy -/

def MAX_TURNS : UInt8 := 5
def VERDICT_MARGIN : Int64 := 250

inductive Action where
  | continue (turn : UInt8) (role : Role)
  | terminate (verdict : Verdict)
deriving DecidableEq, Repr

/-- `saturating_add(1)` of a counter. -/
def bump {w : Nat} (x : BitVec w) : BitVec w := if x = BitVec.allOnes w then x else x + 1

def selectOrgan (pref : Nat) : Organ := (Organ.atIndex (pref % N_ORGANS)).getD .retrievalOverMemory

def assignRole (turn : UInt8) : Role :=
  match (turn % 3).toNat with
  | 0 => .thinker
  | 1 => .worker
  | _ => .verifier

def verifierVerdict (role : Role) (score floor margin : Int64) : Verdict :=
  if role ≠ .verifier then .revise
  else if satI 128 (score.toInt - floor.toInt) ≥ margin.toInt then .accept
  else .revise

def next (turn : UInt8) (role : Role) (verdict : Verdict) : Action :=
  if role = .verifier ∧ verdict = .accept then .terminate .accept
  else
    let nextTurn : UInt8 := ⟨bump turn.toBitVec⟩
    if nextTurn ≤ MAX_TURNS then .continue nextTurn (assignRole nextTurn) else .terminate .haltBudget

def step (turn : UInt8) (score floor margin : Int64) : Verdict × Action :=
  let role := assignRole turn
  let verdict := verifierVerdict role score floor margin
  (verdict, next turn role verdict)

/-- The score beats the floor by the margin. -/
def Clears (score floor margin : Int64) : Prop := margin.toInt ≤ score.toInt - floor.toInt

instance (score floor margin : Int64) : Decidable (Clears score floor margin) :=
  inferInstanceAs (Decidable (_ ≤ _))

/-- Nothing saturates: the difference of two words of 64 bits fits into 128. -/
theorem verifier_accepts_iff (score floor margin : Int64) :
    verifierVerdict .verifier score floor margin = if Clears score floor margin then .accept else .revise := by
  have hs := score.toInt_lt
  have hs' := score.le_toInt
  have hf := floor.toInt_lt
  have hf' := floor.le_toInt
  have hsat : satI 128 (score.toInt - floor.toInt) = score.toInt - floor.toInt := satI_of_mem (by omega) (by omega)
  rw [verifierVerdict, if_neg (by decide), hsat]
  rfl

section Turns

variable (score floor margin : Int64)

theorem step_thinker : step 0 score floor margin = (.revise, .continue 1 .worker) := rfl

theorem step_worker : step 1 score floor margin = (.revise, .continue 2 .verifier) := rfl

theorem step_verifier :
    step 2 score floor margin =
      if Clears score floor margin then (.accept, .terminate .accept) else (.revise, .continue 3 .thinker) := by
  show (verifierVerdict .verifier score floor margin, next 2 .verifier (verifierVerdict .verifier score floor margin)) = _
  rw [verifier_accepts_iff]
  split <;> rfl

theorem step_thinker' : step 3 score floor margin = (.revise, .continue 4 .worker) := rfl

theorem step_worker' : step 4 score floor margin = (.revise, .continue 5 .verifier) := rfl

theorem step_verifier' :
    step 5 score floor margin =
      if Clears score floor margin then (.accept, .terminate .accept) else (.revise, .terminate .haltBudget) := by
  show (verifierVerdict .verifier score floor margin, next 5 .verifier (verifierVerdict .verifier score floor margin)) = _
  rw [verifier_accepts_iff]
  split <;> rfl

end Turns

/-! ## The loop -/

/-- What is seen of a turn. -/
structure TraceStep where
  turn : UInt8
  role : Role
  organ : Organ
  verdict : Verdict
  organCalls : BitVec 16
  tLogical : BitVec 64
deriving DecidableEq, Repr

def TraceStep.decision (s : TraceStep) : ConductDecision :=
  { turn := s.turn, role := s.role.tag, organ := s.organ.tag, verdict := s.verdict.tag
    organCalls := s.organCalls, tLogical := s.tLogical }

/-- The bytes of a decision, through a scratch buffer with room to spare. -/
def row (d : ConductDecision) : List UInt8 :=
  let (n, scratch) := canon d (zeros (CONDUCT_CANON_LEN + 8))
  scratch.val.take n

/-- `conduct_hash` of them. -/
def decisionId (d : ConductDecision) : Bytes32 := Mem.Prov.provHash (row d)

structure Loop where
  turn : UInt8
  organCalls : BitVec 16
  round : BitVec 8
  trace : List TraceStep
  policyHead : Bytes32

/-- Before the first turn. -/
def Loop.start : Loop := ⟨0, 0, 0, [], Mem.Prov.genesis⟩

section Run

variable (pick : Role → BitVec 8 → Organ) (score : BitVec 8 → Int64) (floor margin : Int64)

/-- One turn; whether it was the last. -/
def Loop.turnOnce (l : Loop) : Loop × Bool :=
  let role := assignRole l.turn
  let organ := pick role l.round
  let organCalls := if role = .worker then bump l.organCalls else l.organCalls
  let (verdict, action) := step l.turn (score l.round) floor margin
  let s : TraceStep := ⟨l.turn, role, organ, verdict, organCalls, .ofNat 64 l.turn.toNat⟩
  let l := { l with
    organCalls := organCalls, trace := l.trace ++ [s]
    policyHead := Mem.Prov.chainMix l.policyHead (decisionId s.decision) }
  match action with
  | .terminate _ => (l, true)
  | .continue nextTurn _ =>
      ({ l with
        round := if role = .verifier ∧ verdict = .revise then bump l.round else l.round
        turn := nextTurn }, false)

/-- At most so many turns; whether the loop ended by itself. -/
def Loop.run : Nat → Loop → Loop × Bool
  | 0, l => (l, false)
  | n + 1, l =>
      match l.turnOnce pick score floor margin with
      | (l, true) => (l, true)
      | (l, false) => Loop.run n l

/-- The trace of a round from its turn, its number and what the verifier said. -/
def round (turn : UInt8) (k : BitVec 8) (calls : BitVec 16) (verdict : Verdict) : List TraceStep :=
  [⟨turn, .thinker, pick .thinker k, .revise, calls, .ofNat 64 turn.toNat⟩,
    ⟨turn + 1, .worker, pick .worker k, .revise, calls + 1, .ofNat 64 (turn + 1).toNat⟩,
    ⟨turn + 2, .verifier, pick .verifier k, verdict, calls + 1, .ofNat 64 (turn + 2).toNat⟩]

/-- The three traces there are. -/
def traceOf : List TraceStep :=
  if Clears (score 0) floor margin then round pick 0 0 0 .accept
  else round pick 0 0 0 .revise ++ round pick 3 1 1 (if Clears (score 1) floor margin then .accept else .revise)

end Run

/-- The ids of a trace. -/
def idsOf (trace : List TraceStep) : List Bytes32 := trace.map fun s => decisionId s.decision

/-! ## Every run -/

section Runs

variable (pick : Role → BitVec 8 → Organ) (score : BitVec 8 → Int64) (floor margin : Int64)

theorem idsOf_append (a b : List TraceStep) : idsOf (a ++ b) = idsOf a ++ idsOf b := List.map_append

/-- The head is the one of the trace. -/
theorem head_turnOnce {l : Loop} (h : l.policyHead = Mem.Prov.headOf (idsOf l.trace)) :
    (l.turnOnce pick score floor margin).1.policyHead =
      Mem.Prov.headOf (idsOf (l.turnOnce pick score floor margin).1.trace) := by
  have hsnoc (s : TraceStep) : Mem.Prov.chainMix l.policyHead (decisionId s.decision) =
      Mem.Prov.headOf (idsOf (l.trace ++ [s])) := by
    rw [h, idsOf_append, Mem.Prov.headOf, Mem.Prov.headOf]
    exact (Chain.head_snoc _ _).symm
  rw [Loop.turnOnce]
  generalize step l.turn (score l.round) floor margin = out
  obtain ⟨verdict, _ | _⟩ := out
  · exact hsnoc _
  · exact hsnoc _

theorem head_run (n : Nat) {l : Loop} (h : l.policyHead = Mem.Prov.headOf (idsOf l.trace)) :
    (l.run pick score floor margin n).1.policyHead =
      Mem.Prov.headOf (idsOf (l.run pick score floor margin n).1.trace) := by
  induction n generalizing l with
  | zero => exact h
  | succ n ih =>
      have hturn := head_turnOnce pick score floor margin h
      rw [Loop.run]
      generalize l.turnOnce pick score floor margin = r at hturn ⊢
      obtain ⟨l', _ | _⟩ := r
      · exact ih hturn
      · exact hturn

theorem run_eq (n : Nat) :
    (Loop.start.run pick score floor margin (n + 6)).2 = true ∧
      (Loop.start.run pick score floor margin (n + 6)).1.trace = traceOf pick score floor margin ∧
      (Loop.start.run pick score floor margin (n + 6)).1.organCalls =
        if Clears (score 0) floor margin then 1 else 2 := by
  have hrole0 : assignRole 0 = .thinker := rfl
  have hrole1 : assignRole 1 = .worker := rfl
  have hrole2 : assignRole 2 = .verifier := rfl
  have hrole3 : assignRole 3 = .thinker := rfl
  have hrole4 : assignRole 4 = .worker := rfl
  have hrole5 : assignRole 5 = .verifier := rfl
  have hcall : bump (0 : BitVec 16) = 1 := by decide
  have hcall' : bump (1 : BitVec 16) = 2 := by decide
  have hround : bump (0 : BitVec 8) = 1 := by decide
  by_cases hfirst : Clears (score 0) floor margin
  · have hverdict : step 2 (score 0) floor margin = (.accept, .terminate .accept) := by
      rw [step_verifier, if_pos hfirst]
    simp only [Loop.run, Loop.turnOnce, Loop.start, step_thinker, step_worker, hverdict, hrole0, hrole1, hrole2,
      reduceCtorEq, false_and, if_false, if_true, hcall, traceOf, hfirst]
    exact ⟨trivial, rfl, trivial⟩
  · have hverdict : step 2 (score 0) floor margin = (.revise, .continue 3 .thinker) := by
      rw [step_verifier, if_neg hfirst]
    by_cases hsecond : Clears (score 1) floor margin
    · have hverdict' : step 5 (score 1) floor margin = (.accept, .terminate .accept) := by
        rw [step_verifier', if_pos hsecond]
      simp only [Loop.run, Loop.turnOnce, Loop.start, step_thinker, step_worker, hverdict, step_thinker', step_worker',
        hverdict', hrole0, hrole1, hrole2, hrole3, hrole4, hrole5, reduceCtorEq, false_and, and_self, if_false, if_true,
        hcall, hcall', hround, traceOf, hfirst, hsecond]
      exact ⟨trivial, rfl, trivial⟩
    · have hverdict' : step 5 (score 1) floor margin = (.revise, .terminate .haltBudget) := by
        rw [step_verifier', if_neg hsecond]
      simp only [Loop.run, Loop.turnOnce, Loop.start, step_thinker, step_worker, hverdict, step_thinker', step_worker',
        hverdict', hrole0, hrole1, hrole2, hrole3, hrole4, hrole5, reduceCtorEq, false_and, and_self, if_false, if_true,
        hcall, hcall', hround, traceOf, hfirst, hsecond]
      exact ⟨trivial, rfl, trivial⟩

end Runs

end Yuva.Conduct
