/-
# `Yuva.Kernel.Trust` — what agents can do to the standing of a skill

Agents reach the procedural store through `dispatch`, the harness through its evaluations.
Along any run from boot:

*Trust.*  The calls of agents leave the tier of every skill and the best score where they
are, and what they add is proposed (`dispatches_untrusted`).  A skill is admitted only by an
evaluation of it whose score beats every score admitted there before, and stays admitted.

*Lineage.*  The log of a skill's verdicts is also where `LINK_LINEAGE` writes, with an entry
of the agent's choice.  A run keeps every lineage to the verdicts of the harness exactly when
none of its calls links a skill (`lineages_exact_iff`).
-/
import Yuva.Kernel.Memory

namespace Yuva.Kernel

open Yuva.Caps CapTable Yuva.Ipc Yuva.Mem Yuva.Blocks Yuva.Run

variable {ι : Type*} [DecidableEq ι]

/-! ## Evaluations -/

omit [DecidableEq ι] in
/-- An evaluation ends in a verdict. -/
theorem memCall_of_evaluation {w : World ι} {op : Op ι} {e : Nat × BitVec 64 × BitVec 32}
    (h : w.evaluation op = some e) : w.memCall op = some (e.1, .skillAdmit e.2.1 e.2.2) := by
  cases op with
  | harnessAdmit | harnessMerge | harnessAdmitRotating => simp only [World.memCall, h, Option.map_some]
  | dispatch | evalSeedHeldout | mint | chanCall | modelInvokeBytes | createChannel | createBlock
  | killBlock | setCognitiveDeny => cases h

omit [DecidableEq ι] in
/-- A verdict is the end of an evaluation. -/
theorem evaluation_of_memCall {w : World ι} {op : Op ι} {cell : Nat} {id : BitVec 64} {score : BitVec 32}
    (h : w.memCall op = some (cell, .skillAdmit id score)) :
    w.evaluation op = some (cell, id, score) := by
  have hverdict : ∀ {x : Option (Nat × BitVec 64 × BitVec 32)},
      x.map (fun e => (e.1, MemSubstrate.Op.skillAdmit e.2.1 e.2.2)) =
        some (cell, .skillAdmit id score) → x = some (cell, id, score) := by
    intro x hx
    obtain ⟨⟨c, i, s⟩, rfl, he⟩ := Option.map_eq_some_iff.mp hx
    cases he
    rfl
  cases op with
  | harnessAdmit | harnessMerge | harnessAdmitRotating => exact hverdict h
  | dispatch t a => exact (Proc.memCall_cell h).2.elim
  | evalSeedHeldout t eh target base n =>
      obtain ⟨c, -, he⟩ := Option.map_eq_some_iff.mp h
      cases he
  | mint | chanCall | modelInvokeBytes | createChannel | createBlock | killBlock | setCognitiveDeny =>
      cases h

/-! ## Trust -/

theorem admission_dispatched {op : MemSubstrate.Op} (h : Dispatched op) (s : MemSubstrate) :
    admission s op = none := by
  cases op with
  | write | readTouch | tbRecall | consolidate | writeProc => rfl
  | skillAdmit | seedHeldout | corpusEmitOperatorTurn | corpusEmitLabeledOutcome => exact h.elim

/-- A call of an agent grants no trust. -/
theorem dispatch_untrusted {w : World ι} (h : Homed w) (t : ι) (a : SyscallArgs) (cell : Nat) :
    Untrusted (w.heap.mems cell) ((w.step (.dispatch t a)).heap.mems cell) := by
  rw [step_mems_at h]
  cases hcall : w.memCall (.dispatch t a) with
  | none => exact .refl _
  | some e =>
      obtain ⟨cell', op⟩ := e
      rw [opOn]
      split
      · rcases step_trust (w.heap.mems cell) op with ⟨-, hun⟩ | ⟨i, score, hsome, -⟩
        · exact hun
        · rw [admission_dispatched (Proc.memCall_cell hcall).2] at hsome
          cases hsome
      · exact .refl _

/-- The calls of agents. -/
def calls (l : List (ι × SyscallArgs)) : List (Op ι) := l.map fun c => .dispatch c.1 c.2

theorem dispatches_untrusted (l : List (ι × SyscallArgs)) {w : World ι} (h : Homed w) (cell : Nat) :
    Untrusted (w.heap.mems cell) ((exec World.step w (calls l)).heap.mems cell) := by
  induction l generalizing w with
  | nil => exact .refl _
  | cons c l ih => exact (dispatch_untrusted h c.1 c.2 cell).trans (ih (step_homed _ h))

theorem best_world (ops : List (Op ι)) {w : World ι} (h : Homed w) (cell : Nat) :
    (w.heap.mems cell).t4.bestScore ≤ ((exec World.step w ops).heap.mems cell).t4.bestScore := by
  rw [mems_exec ops h]
  exact best_exec _ _

/-- The score a call admits a skill with. -/
def admittedScore (cell : Nat) (w : World ι) (op : Op ι) : List (BitVec 32) :=
  match w.evaluation op with
  | some (cell', id, score) =>
      if cell' = cell ∧ ((w.heap.mems cell).skillAdmit id score).1 = true then [score] else []
  | none => []

/-- The scores a run admits skills with, in order. -/
def admittedScores (cell : Nat) : World ι → List (Op ι) → List (BitVec 32)
  | _, [] => []
  | w, op :: ops => admittedScore cell w op ++ admittedScores cell (w.step op) ops

/-- A score that is admitted becomes the best. -/
theorem admittedScore_le {w : World ι} (h : Homed w) (op : Op ι) (cell : Nat) :
    ∀ x ∈ admittedScore cell w op, x ≤ ((w.step op).heap.mems cell).t4.bestScore := by
  intro x hx
  rw [admittedScore] at hx
  split at hx
  · next cell' id score he =>
      split at hx
      · next hadmitted =>
          obtain ⟨rfl, hanswer⟩ := hadmitted
          rw [List.mem_singleton.mp hx, step_mems_at h, memCall_of_evaluation he, opOn, if_pos rfl]
          exact le_of_skillAdmit hanswer
      · cases hx
  · cases hx

theorem admittedScores_le (ops : List (Op ι)) {w : World ι} (h : Homed w) (cell : Nat) :
    ∀ x ∈ admittedScores cell w ops, x ≤ ((exec World.step w ops).heap.mems cell).t4.bestScore := by
  induction ops generalizing w with
  | nil => exact fun x hx => nomatch hx
  | cons op ops ih =>
      intro x hx
      rcases List.mem_append.mp hx with hx | hx
      · exact BitVec.le_trans (admittedScore_le h op cell x hx) (best_world ops (step_homed op h) cell)
      · exact ih (step_homed op h) x hx

theorem admittedAt_world {w : World ι} (h : Homed w) (op : Op ι) {cell i : Nat} {id : BitVec 64}
    (hadm : AdmittedAt (w.heap.mems cell) i id) : AdmittedAt ((w.step op).heap.mems cell) i id := by
  rw [step_mems_at h]
  exact exec_inv (P := fun s => AdmittedAt s i id) (fun _ op hs => admittedAt_step op hs) _ hadm

/-- A skill becomes admitted by an evaluation of it that beats the best score. -/
theorem evaluation_of_admittedAt {w : World ι} (h : Homed w) {op : Op ι} {cell i : Nat} {id : BitVec 64}
    (hbefore : ¬ AdmittedAt (w.heap.mems cell) i id)
    (hafter : AdmittedAt ((w.step op).heap.mems cell) i id) :
    ∃ id' score, w.evaluation op = some (cell, id', score) ∧
      (w.heap.mems cell).skillIdx id' = some i ∧ (w.heap.mems cell).t4.bestScore < score := by
  rw [step_mems_at h] at hafter
  cases hcall : w.memCall op with
  | none =>
      rw [hcall] at hafter
      exact absurd hafter hbefore
  | some e =>
      obtain ⟨cell', o⟩ := e
      rw [hcall, opOn] at hafter
      split at hafter
      · next heq =>
          subst heq
          obtain ⟨score, hadm, hlt⟩ := admission_of_admittedAt hbefore hafter
          obtain ⟨id', rfl, hidx⟩ := admission_eq_some hadm
          exact ⟨id', score, evaluation_of_memCall hcall, hidx, hlt⟩
      · exact absurd hafter hbefore

/-- After any run from boot, the calls of agents grant no trust; and whatever is called
next, a skill becomes admitted only by an evaluation whose score beats every score admitted
before, and an admitted one stays admitted. -/
theorem trust_not_self_granted (cap : ι → Nat) (pre : List (Op ι)) (cell : Nat) :
    (∀ l, Untrusted ((exec World.step (World.boot cap) pre).heap.mems cell)
      ((exec World.step (World.boot cap) (pre ++ calls l)).heap.mems cell)) ∧
    ∀ op i id,
      (AdmittedAt ((exec World.step (World.boot cap) pre).heap.mems cell) i id →
        AdmittedAt ((exec World.step (World.boot cap) (pre ++ [op])).heap.mems cell) i id) ∧
      (¬ AdmittedAt ((exec World.step (World.boot cap) pre).heap.mems cell) i id →
        AdmittedAt ((exec World.step (World.boot cap) (pre ++ [op])).heap.mems cell) i id →
        ∃ id' score, (exec World.step (World.boot cap) pre).evaluation op = some (cell, id', score) ∧
          ((exec World.step (World.boot cap) pre).heap.mems cell).skillIdx id' = some i ∧
          ∀ x ∈ admittedScores cell (World.boot cap) pre, x < score) := by
  have hhomed := homed_exec pre (homed_boot cap)
  refine ⟨fun l => ?_, fun op i id => ⟨fun hadm => ?_, fun hbefore hafter => ?_⟩⟩
  · rw [exec_append]
    exact dispatches_untrusted l hhomed cell
  · rw [exec_append]
    exact admittedAt_world hhomed op hadm
  · rw [exec_append] at hafter
    obtain ⟨id', score, he, hidx, hlt⟩ := evaluation_of_admittedAt hhomed hbefore hafter
    refine ⟨id', score, he, hidx, fun x hx => ?_⟩
    have hle := admittedScores_le pre (homed_boot cap) cell x hx
    exact BitVec.lt_def.mpr (Nat.lt_of_le_of_lt (BitVec.le_def.mp hle) (BitVec.lt_def.mp hlt))

/-! ## Lineages -/

/-- The verdict a call enters for skill `i`: the score on admission, zero on rejection. -/
def verdict (cell i : Nat) (w : World ι) (op : Op ι) : List (BitVec 64) :=
  match w.evaluation op with
  | some (cell', id, score) =>
      if cell' = cell ∧ (w.heap.mems cell).skillIdx id = some i then
        [if ((w.heap.mems cell).skillAdmit id score).1 then score.setWidth 64 else 0]
      else []
  | none => []

/-- The verdicts of a run on skill `i`, in order. -/
def verdicts (cell i : Nat) : World ι → List (Op ι) → List (BitVec 64)
  | _, [] => []
  | w, op :: ops => verdict cell i w op ++ verdicts cell i (w.step op) ops

theorem verdicts_append (cell i : Nat) (w : World ι) (pre post : List (Op ι)) :
    verdicts cell i w (pre ++ post) =
      verdicts cell i w pre ++ verdicts cell i (exec World.step w pre) post := by
  induction pre generalizing w with
  | nil => rfl
  | cons op pre ih => rw [List.cons_append, verdicts, verdicts, ih, List.append_assoc, exec_cons]

/-- The call links a skill that exists: `LINK_LINEAGE`. -/
def Links (w : World ι) (op : Op ι) : Prop :=
  ∃ cell o id parent c, w.memCall op = some (cell, .writeProc o id parent c) ∧ o.toNat = 3 ∧
    (w.heap.mems cell).skillIdx id ≠ none

/-- What a linking call enters for skill `i`. -/
def linked (cell i : Nat) (w : World ι) (op : Op ι) : List (BitVec 64) :=
  match w.memCall op with
  | some (cell', o) => if cell' = cell then linkOn (w.heap.mems cell) i o else []
  | none => []

/-- One call enters its verdict into a lineage, and its link. -/
theorem lineageAt_world {w : World ι} (h : Homed w) (op : Op ι) (cell i : Nat) :
    lineageAt ((w.step op).heap.mems cell) i =
      lineageAt (w.heap.mems cell) i ++ verdict cell i w op ++ linked cell i w op := by
  rw [step_mems_at h, verdict, linked]
  cases hcall : w.memCall op with
  | none =>
      have hno : w.evaluation op = none := by
        cases he : w.evaluation op with
        | none => rfl
        | some e => cases hcall.symm.trans (memCall_of_evaluation he)
      rw [hno]
      simp only [opOn, exec_nil, List.append_nil]
  | some e =>
      obtain ⟨cell', o⟩ := e
      rw [opOn]
      by_cases hcell : cell' = cell
      · subst hcell
        rw [if_pos rfl, exec_cons, exec_nil, lineageAt_step]
        dsimp only
        rw [if_pos rfl]
        congr 2
        cases he : w.evaluation op with
        | none =>
            cases o with
            | skillAdmit id score => cases he.symm.trans (evaluation_of_memCall hcall)
            | write | readTouch | tbRecall | consolidate | writeProc | seedHeldout
            | corpusEmitOperatorTurn | corpusEmitLabeledOutcome => rfl
        | some e =>
            obtain ⟨c, id, score⟩ := e
            cases hcall.symm.trans (memCall_of_evaluation he)
            simp only [verdictOn, true_and]
      · have hno : ∀ c id score, w.evaluation op = some (c, id, score) → c ≠ cell := by
          intro c id score he
          cases hcall.symm.trans (memCall_of_evaluation he)
          exact hcell
        rw [if_neg hcell, exec_nil]
        dsimp only
        rw [if_neg hcell, List.append_nil]
        split
        · next c id score he => rw [if_neg fun hc => hno c id score he hc.1, List.append_nil]
        · rw [List.append_nil]

omit [DecidableEq ι] in
/-- A call that links no skill enters nothing of its own. -/
theorem linked_eq_nil_iff {w : World ι} {op : Op ι} :
    (∀ cell i, linked cell i w op = []) ↔ ¬ Links w op := by
  constructor
  · rintro hnil ⟨cell, o, id, parent, c, hcall, ho, hidx⟩
    obtain ⟨i, hi⟩ := Option.ne_none_iff_exists'.mp hidx
    have hentry := hnil cell i
    rw [linked, hcall] at hentry
    dsimp only at hentry
    rw [if_pos rfl, linkOn, if_pos ⟨ho, hi⟩] at hentry
    cases hentry
  · intro hno cell i
    rw [linked]
    split
    · next cell' o hcall =>
        split
        · next heq =>
            subst heq
            cases o with
            | writeProc o id parent c =>
                rw [linkOn, if_neg]
                rintro ⟨ho, hi⟩
                exact hno ⟨_, o, id, parent, c, hcall, ho, by rw [hi]; exact Option.some_ne_none i⟩
            | write | readTouch | tbRecall | consolidate | skillAdmit | seedHeldout
            | corpusEmitOperatorTurn | corpusEmitLabeledOutcome => rfl
        · rfl
    · rfl

/-- Every lineage is the sequence of the verdicts on its skill. -/
def LineagesExact (cap : ι → Nat) (ops : List (Op ι)) : Prop :=
  ∀ cell i, lineageAt ((exec World.step (World.boot cap) ops).heap.mems cell) i =
    verdicts cell i (World.boot cap) ops

theorem lineagesExact_snoc {cap : ι → Nat} {pre : List (Op ι)} (h : LineagesExact cap pre) (op : Op ι) :
    LineagesExact cap (pre ++ [op]) ↔ ¬ Links (exec World.step (World.boot cap) pre) op := by
  rw [← linked_eq_nil_iff]
  refine forall_congr' fun cell => forall_congr' fun i => ?_
  rw [exec_append, exec_cons, exec_nil, lineageAt_world (homed_exec pre (homed_boot cap)), h cell i,
    verdicts_append, verdicts, verdicts, List.append_nil, List.append_right_eq_self]

/-- Along a run every lineage is the sequence of the verdicts exactly when no call links a
skill. -/
theorem lineages_exact_iff (cap : ι → Nat) (ops : List (Op ι)) :
    (∀ pre post, ops = pre ++ post → LineagesExact cap pre) ↔
      Guarded World.step (fun w op => ¬ Links w op) (World.boot cap) ops := by
  rw [guarded_iff]
  constructor
  · rintro hall pre op post rfl
    refine (lineagesExact_snoc (hall pre (op :: post) rfl) op).mp (hall (pre ++ [op]) post ?_)
    rw [List.append_assoc, List.singleton_append]
  · intro hguard pre post hops
    induction pre using List.reverseRecOn generalizing post with
    | nil => exact fun cell i => rfl
    | append_singleton pre op ih =>
        have hops' : ops = pre ++ op :: post := by
          rw [hops, List.append_assoc, List.singleton_append]
        exact (lineagesExact_snoc (ih _ hops') op).mpr (hguard pre op post hops')

/-- A home for skills; a skill proposed through its method, then linked with an entry of the
agent's choice. -/
def forgeVerdict : List (Op Unit) :=
  [.mint () (Rights.READ.union Rights.WRITE_PROCEDURAL) .memoryHome,
   .dispatch () ⟨18, Handle.new 1 0, 0, 5, 5, 0⟩,
   .dispatch () ⟨18, Handle.new 1 0, 3, 0, 1000, 0⟩]

/-- Nothing was evaluated, and the log shows an admission at score 1000. -/
theorem lineage_forged : ¬ LineagesExact (fun _ => 4) forgeVerdict := by
  intro h
  have hlog : lineageAt ((exec World.step (World.boot fun _ => 4) forgeVerdict).heap.mems 0) 0 = [1000] := by
    decide
  have hnone : verdicts 0 0 (World.boot fun _ => 4) forgeVerdict = [] := by
    decide
  cases hlog.symm.trans ((h 0 0).trans hnone)

end Yuva.Kernel
