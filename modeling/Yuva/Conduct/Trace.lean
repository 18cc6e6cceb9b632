/-
# `Yuva.Conduct.Trace` — the trace, read by somebody else

After the self-test the kernel writes one line a turn to the console (`kernel/src/main.rs`),

    conduct-step: turn=0x… role=0x… organ=0x… verdict=0x… organ-calls=0x… t-logical=0x…

each number in sixteen digits, and then the head.  `tools/conductor-host --recompute-from-trace`
reads the console, rebuilds the decisions from those lines, folds them and prints its own head; the
run script compares the two.  The host looks for each key anywhere in the line, reads as many
digits as there are, and cuts the numbers down to the widths of the fields; every other line is
passed over, and a line it cannot read stops it.

**Proved here.**  What the host prints is the fold over the lines it could read, all of them
(`recompute_iff`).  So over a console that has the kernel's lines in order, among any others that
do not start like them, the host prints the kernel's head and its number of turns (`host_agrees`).
-/
import Yuva.Conduct.Selftest
import Yuva.Lib.Scan

namespace Yuva.Conduct

open Yuva.Bytes Yuva.Hash Yuva.Scan

/-! ## The kernel writes -/

/-- `write_hex_u64`. -/
def writeHexU64 (v : BitVec 64) : Text := "0x".toList ++ hex16 v

/-- The fields of a line, in order. -/
def stepFields (st : ConductDecision) : List (String × BitVec 64) :=
  [("turn", .ofNat 64 st.turn.toNat), ("role", .ofNat 64 st.role.toNat), ("organ", .ofNat 64 st.organ.toNat),
    ("verdict", .ofNat 64 st.verdict.toNat), ("organ-calls", st.organCalls.setWidth 64), ("t-logical", st.tLogical)]

def fieldText (f : String × BitVec 64) : Text := " ".toList ++ f.1.toList ++ "=".toList ++ writeHexU64 f.2

def stepLine (st : ConductDecision) : Text := "conduct-step:".toList ++ (stepFields st).flatMap fieldText

/-- The lines of the trace; the buffer holds no more than its eight steps. -/
def emitTrace (cp : ConductorProof) : List Text := (cp.steps.toList.take cp.records).map stepLine

/-! ## The host reads -/

def fieldHex (line : Text) (key : String) : Option (BitVec 64) := (after (key.toList ++ "=0x".toList) line).bind readHex

/-- The decision of a line: the numbers cast to the fields. -/
def readStep (line : Text) : Option ConductDecision := do
  let turn ← fieldHex line "turn"
  let role ← fieldHex line "role"
  let organ ← fieldHex line "organ"
  let verdict ← fieldHex line "verdict"
  let organCalls ← fieldHex line "organ-calls"
  let tLogical ← fieldHex line "t-logical"
  pure
    { turn := .ofNat turn.toNat, role := .ofNat role.toNat, organ := .ofNat organ.toNat
      verdict := .ofNat verdict.toNat, organCalls := organCalls.setWidth 16, tLogical := tLogical }

def isStepLine (line : Text) : Bool := "conduct-step:".toList.isPrefixOf line

/-- The head so far and the steps, unless a line cannot be read. -/
def foldLines : Bytes32 × Nat → List Text → Except Text (Bytes32 × Nat)
  | st, [] => .ok st
  | (head, steps), line :: rest =>
      if isStepLine (trim line) = false then foldLines (head, steps) rest
      else match readStep (trim line) with
        | none => .error (trim line)
        | some d => foldLines (Mem.Prov.chainMix head (decisionId d), steps + 1) rest

/-- What the host says. -/
inductive Outcome where
  | printed (head : BitVec 64) (steps : Nat)
  | malformed (line : Text)
  | noTrace
deriving DecidableEq

/-- `recompute_from_trace`. -/
def recomputeFromTrace (input : Text) : Outcome :=
  match foldLines (Mem.Prov.genesis, 0) (lines input) with
  | .error line => .malformed line
  | .ok (head, steps) => if steps = 0 then .noTrace else .printed (Mem.Prov.headWitness head) steps

/-! ## A line comes back -/

/-- What the host looks for. -/
def needle (key : String) : Text := key.toList ++ "=0x".toList

/-- A field up to its digits. -/
def label (key : String) : Text := " ".toList ++ needle key

theorem fieldText_eq (f : String × BitVec 64) : fieldText f = label f.1 ++ hex16 f.2 := by
  simp only [fieldText, writeHexU64, label, needle, List.append_assoc]
  rfl

/-- The key of a field is none of the keys before it, and no digit. -/
structure Findable (front : Text) (before : List String) (key : String) : Prop where
  front : Misses (needle key) front
  before : ∀ k ∈ before, Misses (needle key) (label k)
  space : Misses (needle key) " ".toList
  letter : isHexDigit ((needle key).headD '0') = false

theorem Findable.digits {front : Text} {before : List String} {key : String} (h : Findable front before key)
    (v : BitVec 64) (rest : Text) : after (needle key) (hex16 v ++ rest) = after (needle key) rest := by
  have hletter := h.letter
  cases hn : needle key with
  | nil => simp [needle] at hn
  | cons c p =>
      rw [hn, List.headD_cons] at hletter
      refine after_skip (fun hmem => ?_) rest
      have hdigit := (mem_hex16 hmem).1
      rw [hletter] at hdigit
      cases hdigit

/-- A field is read from a line of fields, whatever their numbers are. -/
theorem fieldHex_fields {front : Text} (pre : List (String × BitVec 64)) {key : String} {v : BitVec 64}
    {post : List (String × BitVec 64)} (h : Findable front (pre.map Prod.fst) key) :
    fieldHex (front ++ (pre ++ (key, v) :: post).flatMap fieldText) key = some v := by
  have hpre : after (needle key) ((pre ++ (key, v) :: post).flatMap fieldText) =
      some (hex16 v ++ post.flatMap fieldText) := by
    induction pre with
    | nil =>
        rw [List.nil_append, List.flatMap_cons, fieldText_eq, label, List.append_assoc, List.append_assoc,
          after_miss h.space, after_hit]
    | cons f pre ih =>
        have htail : Findable front (pre.map Prod.fst) key :=
          { h with before := fun k hk => h.before k (List.mem_cons_of_mem _ hk) }
        rw [List.cons_append, List.flatMap_cons, fieldText_eq, List.append_assoc,
          after_miss (h.before f.1 List.mem_cons_self), h.digits, ih htail]
  have hstop : ∀ c ∈ (post.flatMap fieldText).head?, isHexDigit c = false := by
    intro c hc
    cases post with
    | nil => cases hc
    | cons f post =>
        obtain rfl : ' ' = c := Option.some.inj hc
        rfl
  show (after (needle key) (front ++ (pre ++ (key, v) :: post).flatMap fieldText)).bind readHex = some v
  rw [after_miss h.front, hpre, Option.bind_some, readHex_hex16 v hstop]

/-- What is written is read back, field by field. -/
theorem readStep_stepLine (st : ConductDecision) : readStep (stepLine st) = some st := by
  have hturn : fieldHex (stepLine st) "turn" = some (.ofNat 64 st.turn.toNat) :=
    fieldHex_fields [] (show Findable _ [] _ by constructor <;> decide)
  have hrole : fieldHex (stepLine st) "role" = some (.ofNat 64 st.role.toNat) :=
    fieldHex_fields [("turn", _)] (show Findable _ ["turn"] _ by constructor <;> decide)
  have horgan : fieldHex (stepLine st) "organ" = some (.ofNat 64 st.organ.toNat) :=
    fieldHex_fields [("turn", _), ("role", _)] (show Findable _ ["turn", "role"] _ by constructor <;> decide)
  have hverdict : fieldHex (stepLine st) "verdict" = some (.ofNat 64 st.verdict.toNat) :=
    fieldHex_fields [("turn", _), ("role", _), ("organ", _)]
      (show Findable _ ["turn", "role", "organ"] _ by constructor <;> decide)
  have hcalls : fieldHex (stepLine st) "organ-calls" = some (st.organCalls.setWidth 64) :=
    fieldHex_fields [("turn", _), ("role", _), ("organ", _), ("verdict", _)]
      (show Findable _ ["turn", "role", "organ", "verdict"] _ by constructor <;> decide)
  have htime : fieldHex (stepLine st) "t-logical" = some st.tLogical :=
    fieldHex_fields [("turn", _), ("role", _), ("organ", _), ("verdict", _), ("organ-calls", _)]
      (show Findable _ ["turn", "role", "organ", "verdict", "organ-calls"] _ by constructor <;> decide)
  have hbyte (b : UInt8) : UInt8.ofNat (BitVec.ofNat 64 b.toNat).toNat = b := by
    have hb := b.toNat_lt
    rw [BitVec.toNat_ofNat, Nat.mod_eq_of_lt (by omega), UInt8.ofNat_toNat]
  have hword : (st.organCalls.setWidth 64).setWidth 16 = st.organCalls := by
    rw [BitVec.setWidth_setWidth_of_le _ (by decide), BitVec.setWidth_eq]
  simp only [readStep, hturn, hrole, horgan, hverdict, hcalls, htime, hbyte, hword, Option.bind_eq_bind, Option.bind_some]
  rfl

/-! ## The fold of the host -/

/-- The lines that are steps, trimmed. -/
def stepLines (ls : List Text) : List Text := (ls.map trim).filter isStepLine

/-- What the host folds is what it could read, and it reads all of it. -/
theorem foldLines_iff {ls : List Text} {head : Bytes32} {steps : Nat} {out : Bytes32 × Nat} :
    foldLines (head, steps) ls = .ok out ↔
      ∃ ds : List ConductDecision, (stepLines ls).map readStep = ds.map some ∧
        out = ((ds.map decisionId).foldl Mem.Prov.chainMix head, steps + ds.length) := by
  induction ls generalizing head steps with
  | nil =>
      constructor
      · intro h
        cases h
        exact ⟨[], rfl, rfl⟩
      · rintro ⟨ds, hds, rfl⟩
        obtain rfl : ds = [] := List.map_eq_nil_iff.mp hds.symm
        rfl
  | cons line ls ih =>
      by_cases hline : isStepLine (trim line) = true
      · have hcons : stepLines (line :: ls) = trim line :: stepLines ls := List.filter_cons_of_pos hline
        rw [foldLines, if_neg (by rw [hline]; decide), hcons, List.map_cons]
        cases hread : readStep (trim line) with
        | none =>
            refine iff_of_false (fun h => by cases h) ?_
            rintro ⟨_ | ⟨d, ds⟩, hds, -⟩
            · cases hds
            · cases hds
        | some d =>
            dsimp only
            rw [ih]
            constructor
            · rintro ⟨ds, hds, rfl⟩
              exact ⟨d :: ds, congrArg (some d :: ·) hds, by rw [List.length_cons, Nat.add_assoc, Nat.add_comm 1]; rfl⟩
            · rintro ⟨_ | ⟨d', ds⟩, hds, rfl⟩
              · cases hds
              · obtain ⟨hd, hrest⟩ := List.cons.inj hds
                obtain rfl := Option.some.inj hd
                exact ⟨ds, hrest, by rw [List.length_cons, Nat.add_assoc, Nat.add_comm 1]; rfl⟩
      · have hskip : stepLines (line :: ls) = stepLines ls := List.filter_cons_of_neg hline
        rw [foldLines, if_pos (Bool.eq_false_iff.mpr hline), hskip]
        exact ih

theorem recompute_iff {input : Text} {head : BitVec 64} {steps : Nat} :
    recomputeFromTrace input = .printed head steps ↔
      ∃ ds : List ConductDecision, (stepLines (lines input)).map readStep = ds.map some ∧ ds ≠ [] ∧
        head = Mem.Prov.headWitness (Mem.Prov.headOf (ds.map decisionId)) ∧ steps = ds.length := by
  rw [recomputeFromTrace]
  cases hfold : foldLines (Mem.Prov.genesis, 0) (lines input) with
  | error line =>
      refine iff_of_false (fun h => by cases h) ?_
      rintro ⟨ds, hds, -⟩
      rw [foldLines_iff.mpr ⟨ds, hds, rfl⟩] at hfold
      cases hfold
  | ok out =>
      obtain ⟨ds, hds, rfl⟩ := foldLines_iff.mp hfold
      dsimp only
      rw [Nat.zero_add]
      constructor
      · intro h
        split at h
        case isTrue => cases h
        case isFalse hsome =>
          cases h
          exact ⟨ds, hds, fun hnil => hsome (hnil ▸ rfl), rfl, rfl⟩
      · rintro ⟨ds', hds', hne, rfl, rfl⟩
        have heq : ds = ds' := List.map_injective_iff.mpr (fun _ _ => Option.some.inj) (hds.symm.trans hds')
        subst heq
        rw [if_neg fun hzero => hne (List.length_eq_zero_iff.mp hzero)]
        rfl

/-! ## The two agree -/

theorem selftestTrace_bounds (ws : List Int64) :
    (selftestTrace ws).length ≤ CONDUCTOR_MAX_STEPS ∧ selftestTrace ws ≠ [] := by
  rcases selftestTrace_cases ws with ⟨-, heq⟩ | ⟨-, -, heq⟩ | ⟨-, -, heq⟩ <;> rw [heq] <;> decide

/-- The kernel writes the whole trace. -/
theorem emitTrace_eq (ws : List Int64) :
    emitTrace (conductorSelftest ws) = ((selftestTrace ws).map TraceStep.decision).map stepLine := by
  obtain ⟨htrace, -, -⟩ := selftest_run ws
  obtain ⟨hlen, -⟩ := selftestTrace_bounds ws
  simp only [emitTrace, conductorSelftest, htrace]
  refine congrArg (List.map stepLine) (List.ext_getElem ?_ ?_)
  · rw [List.length_take, Vector.length_toList, List.length_map]
    exact Nat.min_eq_left hlen
  · intro i hi hi'
    rw [List.getElem_take, Vector.getElem_toList, Vector.getElem_ofFn]
    exact List.getD_eq_getElem _ _ hi'

/-- A step line starts with a letter and ends with a digit; there is nothing to trim. -/
theorem trim_stepLine (st : ConductDecision) : trim (stepLine st) = stepLine st := by
  refine trim_eq (fun c hc => ?_) (fun c hc => ?_)
  · obtain rfl : 'c' = c := Option.some.inj hc
    rfl
  · have hends (front : Text) (init : List (String × BitVec 64)) :
        front ++ (init ++ [("t-logical", st.tLogical)]).flatMap fieldText =
          (front ++ init.flatMap fieldText ++ label "t-logical") ++ hex16 st.tLogical := by
      rw [List.flatMap_append, List.flatMap_singleton, fieldText_eq, List.append_assoc, List.append_assoc]
    have hline : stepLine st = ("conduct-step:".toList ++ (stepFields st).dropLast.flatMap fieldText ++
        label "t-logical") ++ hex16 st.tLogical := by
      rw [← hends "conduct-step:".toList (stepFields st).dropLast]
      rfl
    have hlast : (hex16 st.tLogical).getLast? = some ((hex16 st.tLogical).getLast (hex16_ne_nil _)) :=
      List.getLast?_eq_some_getLast _
    rw [hline, List.getLast?_append, hlast, Option.some_or] at hc
    obtain rfl := Option.some.inj hc
    exact (mem_hex16 (List.getLast_mem _)).2

/-- A step is one line. -/
theorem newline_notMem_stepLine (st : ConductDecision) : '\n' ∉ stepLine st := by
  intro hmem
  have hline : '\n' ∈ "conduct-step:".toList ++ (stepFields st).flatMap fieldText := hmem
  obtain hfront | hfields := List.mem_append.mp hline
  · exact absurd hfront (by decide)
  · obtain ⟨f, hf, hfield⟩ := List.mem_flatMap.mp hfields
    rw [fieldText_eq, List.mem_append] at hfield
    obtain hlabel | hdigit := hfield
    · have hkey : f.1 ∈ ["turn", "role", "organ", "verdict", "organ-calls", "t-logical"] :=
        List.mem_map_of_mem (f := Prod.fst) hf
      have hnone : ∀ key ∈ ["turn", "role", "organ", "verdict", "organ-calls", "t-logical"], '\n' ∉ label key := by
        decide
      exact hnone _ hkey hlabel
    · exact absurd (mem_hex16 hdigit).1 (by decide)

/-- **The host comes to the kernel's head.**  Whatever the scores were, and whatever else is on the
console that does not start like a step, the fold over the kernel's lines is the kernel's. -/
theorem host_agrees {ws : List Int64} {console : List Text} (hlines : ∀ l ∈ console, '\n' ∉ l)
    (htrace : stepLines console = emitTrace (conductorSelftest ws)) :
    recomputeFromTrace (unlines console) =
      .printed (conductorSelftest ws).head (conductorSelftest ws).records := by
  obtain ⟨hlog, hhead, -⟩ := selftest_run ws
  have hread : stepLines (lines (unlines console)) = stepLines console := by
    rw [lines_unlines hlines, stepLines, stepLines, List.map_map]
    refine congrArg (List.filter isStepLine) (List.map_congr_left fun l _ => trim_lineOf l)
  rw [recompute_iff]
  refine ⟨(selftestTrace ws).map TraceStep.decision, ?_, ?_, ?_, ?_⟩
  · rw [hread, htrace, emitTrace_eq, List.map_map]
    exact List.map_congr_left fun st _ => readStep_stepLine st
  · exact fun hnil => (selftestTrace_bounds ws).2 (List.map_eq_nil_iff.mp hnil)
  · rw [List.map_map]
    exact congrArg Mem.Prov.headWitness hhead
  · rw [List.length_map]
    exact congrArg List.length hlog

/-- The kernel's own lines are found as they were written. -/
theorem stepLines_map (ds : List ConductDecision) : stepLines (ds.map stepLine) = ds.map stepLine := by
  induction ds with
  | nil => rfl
  | cons d ds ih =>
      have hkey : isStepLine (trim (stepLine d)) = true := by rw [trim_stepLine]; rfl
      have hcons : stepLines (stepLine d :: ds.map stepLine) = trim (stepLine d) :: stepLines (ds.map stepLine) :=
        List.filter_cons_of_pos hkey
      rw [List.map_cons, hcons, trim_stepLine, ih]

theorem stepLines_append (a b : List Text) : stepLines (a ++ b) = stepLines a ++ stepLines b := by
  rw [stepLines, List.map_append, List.filter_append]
  rfl

/-- Three recalls and an answer: the console around the trace of its six turns. -/
def sampleConsole : List Text :=
  ["M40: recall OK".toList] ++ emitTrace (conductorSelftest [200, 400]) ++
    ["M38: conductor OK turns=6 organs=3 verdict=ACCEPT".toList]

theorem host_agrees_sample :
    recomputeFromTrace (unlines sampleConsole) =
      .printed (conductorSelftest [200, 400]).head (conductorSelftest [200, 400]).records := by
  refine host_agrees ?_ ?_
  · intro l hl
    rw [sampleConsole, emitTrace_eq, List.mem_append, List.mem_append] at hl
    obtain (hl | hl) | hl := hl
    · rw [List.mem_singleton.mp hl]
      decide
    · obtain ⟨d, -, rfl⟩ := List.mem_map.mp hl
      exact newline_notMem_stepLine d
    · rw [List.mem_singleton.mp hl]
      decide
  · have hfirst : stepLines ["M40: recall OK".toList] = [] := by decide
    have hlast : stepLines ["M38: conductor OK turns=6 organs=3 verdict=ACCEPT".toList] = [] := by decide
    rw [sampleConsole, stepLines_append, stepLines_append, hfirst, hlast, List.nil_append, List.append_nil, emitTrace_eq,
      stepLines_map]

end Yuva.Conduct
