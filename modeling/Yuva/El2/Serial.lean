/-
# `Yuva.El2.Serial` — the guest's serial output over a whole run

A guest from its launch to its end, in the runs of `Yuva.El2.Verdict`.  What it wrote is read off
its exits: the stores to the data register it came back from (`World.written`).  What the host has
of it is on the console, in frames, and in the buffer while the guest runs.

    exit                               the buffer
    a store to the data register       takes the byte; at a line feed or at 64 bytes it is flushed
    one that tears the guest down      flushed
    `hvc #16` of the guest itself      reset, what it held is gone
    one that hands over without        left as it is, what it holds is gone
      a teardown

The dispatch does not ask who calls, so the last two are open to the guest (`Abandons`).  A guest
that launches itself anew also says where its probe page lies, and a probe page over the serial
port takes the stores there (`Shadowed`).

**Proved here.**  In every state of a run the console's frames decode to what the guest wrote, but
for what the buffer still holds, and every line is a frame or one of the monitor's own, exactly
when no exit abandons bytes and no store is shadowed (`guestlog_faithful_iff`).
-/
import Yuva.Lib.Scan
import Yuva.El2.Verdict

namespace Yuva.El2

open Yuva.Bytes Yuva.Run Monitor
open Yuva.Scan (pieces pieces_flatten)

/-! ## What the guest wrote -/

/-- The byte of a store to the data register of the serial port. -/
def Exit.serial (e : Exit) : Option UInt8 :=
  if classifyExit e.esr = .stageTwoAbort ∧ esrEc e.esr = EC_DABT_LOW ∧ dabtIsEmulatable e.esr = true ∧
      esrWnr e.esr = 1 ∧ inPl011Block e.faultIpa ∧ pageOf e.faultIpa = PL011_PAGE ∧ e.far &&& 0xFFF = PL011_DR then
    some (.ofNat (e.frame.read (dabtIssSrt e.esr) &&& 0xFF).toNat)
  else none

namespace World

/-- The exits the guest came back from: all but the one that ended the run. -/
def returned (w : World) : List Exit := if w.control = .guest then w.taken else w.taken.dropLast

/-- The bytes of the stores to the serial port that were completed, in order. -/
def written (w : World) : List UInt8 := w.returned.filterMap Exit.serial

/-- What the buffer of a running guest holds. -/
def pending (w : World) : List UInt8 :=
  if w.control = .guest then w.mon.log.buf.val.take w.mon.log.len else []

end World

/-! ## What the host reads -/

/-- The lines with the prefix, each decoded, and their payloads put together. -/
def hostDecode (console : List UInt8) : Option (List UInt8) :=
  (((pieces LF console).filter (GUESTLOG_PREFIX.isPrefixOf ·)).mapM fun line =>
    guestlogDecode line GUESTLOG_MAX_PAYLOAD).map List.flatten

/-- A line the monitor writes in its own name. -/
inductive MonitorLine : List UInt8 → Prop
  | nisv (ipa : Reg) : MonitorLine ("el2: nisv-abort ipa=".toUTF8.toList ++ diagWriteHex ipa ++ [LF])
  | parking (code word : Reg) :
      MonitorLine ("el2: B0 UNINITIALIZED (pre-L2.0 EL2 entry) -- parking, code=".toUTF8.toList ++
        diagWriteHex code ++ " x1=".toUTF8.toList ++ diagWriteHex word ++ [LF])

/-- Printable, or the line feed. -/
def Inert (c : UInt8) : Prop := c = LF ∨ (0x20 ≤ c ∧ c ≤ 0x7E)

instance (c : UInt8) : Decidable (Inert c) := inferInstanceAs (Decidable (_ ∨ _))

/-- The console went on from `before` with frames and lines of the monitor, and with nothing else;
the frames decode to what the guest wrote, but for what is pending. -/
def World.Logged (before : List UInt8) (w : World) : Prop :=
  ∃ added decoded, w.mon.log.console = before ++ added ∧ hostDecode added = some decoded ∧
    w.written = decoded ++ w.pending ∧ (∀ line ∈ pieces LF added, GuestLine line ∨ MonitorLine line) ∧
    ∀ c ∈ added, Inert c

/-! ## The guard -/

/-- The exit takes the core from the guest without a teardown, or starts it anew. -/
def Abandons (m : Monitor) (e : Exit) : Prop :=
  match classifyExit e.esr with
  | .stageTwoAbort | .wfx => False
  | .smc => True
  | .undef => m.exits.armed = false
  | .sys64 => m.trap.armed = false ∨ e.esr &&& SYSREG_ISS_SYS_MASK ≠ SYS_CONTEXTIDR_EL1 ∨
      sysregIssIsRead e.esr = true
  | .hvc =>
      match e.imm.toNat with
      | HVC_BOOTSTRAP | HVC_STAGE2_ARM | HVC_EXITS_ARM | HVC_TRAP_ARM | HVC_NESTED_GUEST_ARM | HVC_SCHED_ARM
      | HVC_SCHED_TIMER_SMOKE | HVC_KGUEST_DONE => False
      | HVC_VGIC_ARM => vtrListRegs e.gichVtr = 0
      | _ => True

/-- A store to the serial port that the probe page takes. -/
def Shadowed (m : Monitor) (e : Exit) : Prop :=
  e.serial.isSome = true ∧ m.kg.trapCount + 1 ≤ KG_TRAP_CAP ∧ inProbe m.kg.probeIpa e.faultIpa

/-- The exit loses no byte. -/
def World.Keeps (w : World) (e : Exit) : Prop :=
  w.control = .guest → (0 < w.mon.log.len → ¬ Abandons w.mon e) ∧ ¬ Shadowed w.mon e

/-! ## Lines -/

theorem isHexLower_nibble (v : Reg) (k : Nat) : isHexLower (hexDigit (.ofNat ((v >>> k) &&& 0xF).toNat)) = true := by
  have hdigit : ∀ n < 16, isHexLower (hexDigit (.ofNat n)) = true := by decide
  refine hdigit _ ?_
  rw [BitVec.toNat_and]
  exact Nat.lt_of_le_of_lt Nat.and_le_right (by decide)

theorem print_of_hex : ∀ c : UInt8, isHexLower c = true → 0x20 ≤ c ∧ c ≤ 0x7E :=
  forall_byte (by decide +kernel)

theorem print_of_mem_diag {v : Reg} {c : UInt8} (h : c ∈ diagWriteHex v) : 0x20 ≤ c ∧ c ≤ 0x7E := by
  have hmark : ∀ c ∈ "0x".toUTF8.toList, 0x20 ≤ c ∧ c ≤ 0x7E := by decide +kernel
  rw [diagWriteHex, List.mem_append] at h
  rcases h with h | h
  · exact hmark c h
  · obtain ⟨i, -, rfl⟩ := List.mem_map.mp h
    exact print_of_hex _ (isHexLower_nibble v _)

/-- A printable text that does not begin like a frame is one line, and no frame. -/
theorem line_spec {text : List UInt8} (hhead : text.head? = some 0x65) (hprint : ∀ c ∈ text, 0x20 ≤ c ∧ c ≤ 0x7E) :
    LF ∉ text ∧ GUESTLOG_PREFIX.isPrefixOf (text ++ [LF]) = false ∧ ∀ c ∈ text ++ [LF], Inert c := by
  refine ⟨fun hmem => absurd (hprint LF hmem).1 (by decide), ?_, fun c hc => ?_⟩
  · cases text with
    | nil => cases hhead
    | cons c text =>
        cases hhead
        rfl
  · rcases List.mem_append.mp hc with hc | hc
    · exact .inr (hprint c hc)
    · exact .inl (List.mem_singleton.mp hc)

theorem MonitorLine.spec {line : List UInt8} (h : MonitorLine line) :
    (∃ body, line = body ++ [LF] ∧ LF ∉ body) ∧ GUESTLOG_PREFIX.isPrefixOf line = false ∧ ∀ c ∈ line, Inert c := by
  have htext : ∃ text, line = text ++ [LF] ∧ text.head? = some 0x65 ∧ ∀ c ∈ text, 0x20 ≤ c ∧ c ≤ 0x7E := by
    cases h with
    | nisv ipa =>
        have hfix : "el2: nisv-abort ipa=".toUTF8.toList.head? = some 0x65 ∧
            ∀ c ∈ "el2: nisv-abort ipa=".toUTF8.toList, 0x20 ≤ c ∧ c ≤ 0x7E := by decide +kernel
        refine ⟨_, rfl, by rw [List.head?_append, hfix.1]; rfl, fun c hc => ?_⟩
        rcases List.mem_append.mp hc with hc | hc
        · exact hfix.2 c hc
        · exact print_of_mem_diag hc
    | parking code word =>
        have hfix : "el2: B0 UNINITIALIZED (pre-L2.0 EL2 entry) -- parking, code=".toUTF8.toList.head? = some 0x65 ∧
            (∀ c ∈ "el2: B0 UNINITIALIZED (pre-L2.0 EL2 entry) -- parking, code=".toUTF8.toList,
              0x20 ≤ c ∧ c ≤ 0x7E) ∧ ∀ c ∈ " x1=".toUTF8.toList, 0x20 ≤ c ∧ c ≤ 0x7E := by decide +kernel
        refine ⟨_, rfl, ?_, fun c hc => ?_⟩
        · rw [List.head?_append, List.head?_append, List.head?_append, hfix.1]
          rfl
        · simp only [List.mem_append] at hc
          rcases hc with ((hc | hc) | hc) | hc
          · exact hfix.2.1 c hc
          · exact print_of_mem_diag hc
          · exact hfix.2.2 c hc
          · exact print_of_mem_diag hc
  obtain ⟨text, rfl, hhead, hprint⟩ := htext
  obtain ⟨hone, hnot, hinert⟩ := line_spec hhead hprint
  exact ⟨⟨text, rfl, hone⟩, hnot, hinert⟩

theorem inert_frame {payload : List UInt8} {c : UInt8} (h : c ∈ frame payload) : Inert c := by
  rw [frame, List.mem_append, List.mem_append, List.mem_singleton] at h
  rcases h with (hpre | hhex) | hlf
  · have hall : ∀ c ∈ GUESTLOG_PREFIX, Inert c := by decide +kernel
    exact hall c hpre
  · exact .inr (print_of_hex c (isHexLower_of_mem hhex))
  · exact .inl hlf

section lines

variable {payloads own : List (List UInt8)}

/-- The console's lines are what was put on it. -/
theorem pieces_console (hown : ∀ line ∈ own, MonitorLine line) :
    pieces LF (payloads.flatMap frame ++ own.flatten) = payloads.map frame ++ own := by
  rw [List.flatMap_def, ← List.flatten_append]
  refine pieces_flatten fun line hline => ?_
  rcases List.mem_append.mp hline with hline | hline
  · obtain ⟨p, -, rfl⟩ := List.mem_map.mp hline
    exact ⟨_, rfl, LF_notMem_frame p⟩
  · exact (hown line hline).spec.1

theorem mapM_decode (h : ∀ p ∈ payloads, p.length ≤ GUESTLOG_MAX_PAYLOAD) :
    (payloads.map frame).mapM (fun line => guestlogDecode line GUESTLOG_MAX_PAYLOAD) = some payloads := by
  induction payloads with
  | nil => rfl
  | cons p payloads ih =>
      rw [List.map_cons, List.mapM_cons, guestlogDecode_frame (h p List.mem_cons_self),
        ih fun q hq => h q (List.mem_cons_of_mem _ hq)]
      rfl

theorem hostDecode_console (h : ∀ p ∈ payloads, p.length ≤ GUESTLOG_MAX_PAYLOAD)
    (hown : ∀ line ∈ own, MonitorLine line) :
    hostDecode (payloads.flatMap frame ++ own.flatten) = some payloads.flatten := by
  have hframes : (payloads.map frame).filter (GUESTLOG_PREFIX.isPrefixOf ·) = payloads.map frame := by
    refine List.filter_eq_self.mpr fun line hline => ?_
    obtain ⟨p, -, rfl⟩ := List.mem_map.mp hline
    exact List.isPrefixOf_iff_prefix.mpr ⟨p.flatMap hexByte ++ [LF], by rw [frame, List.append_assoc]⟩
  have hothers : own.filter (GUESTLOG_PREFIX.isPrefixOf ·) = [] :=
    List.filter_eq_nil_iff.mpr fun line hline => by rw [(hown line hline).spec.2.1]; exact Bool.false_ne_true
  rw [hostDecode, pieces_console hown, List.filter_append, hframes, hothers, List.append_nil, mapM_decode h]
  rfl

end lines

/-! ## States of a run -/

/-- A console that went on from `before` with frames and then with the monitor's lines. -/
structure Closed (before : List UInt8) (payloads own : List (List UInt8)) (console : List UInt8) : Prop where
  console : console = before ++ (payloads.flatMap frame ++ own.flatten)
  bounded : ∀ p ∈ payloads, p.length ≤ GUESTLOG_MAX_PAYLOAD
  own : ∀ line ∈ own, MonitorLine line

theorem Emitting.closed {before bytes : List UInt8} {payloads : List (List UInt8)} {s : Emitter}
    (h : Emitting before payloads bytes s) : Closed before payloads [] s.console :=
  ⟨by rw [h.console, List.flatten_nil, List.append_nil], fun p hp => (h.bounded p hp).2, by simp⟩

theorem Closed.more {before console : List UInt8} {payloads own lines : List (List UInt8)}
    (h : Closed before payloads own console) (hl : ∀ line ∈ lines, MonitorLine line) :
    Closed before payloads (own ++ lines) (console ++ lines.flatten) := by
  refine ⟨by rw [h.console, List.flatten_append]; simp only [List.append_assoc], h.bounded, fun line hline => ?_⟩
  rcases List.mem_append.mp hline with hline | hline
  · exact h.own line hline
  · exact hl line hline

/-- What the host reads of such a console. -/
theorem Closed.read {before console : List UInt8} {payloads own : List (List UInt8)}
    (h : Closed before payloads own console) : ∃ added, console = before ++ added ∧
      hostDecode added = some payloads.flatten ∧ (∀ line ∈ pieces LF added, GuestLine line ∨ MonitorLine line) ∧
      ∀ c ∈ added, Inert c := by
  refine ⟨_, h.console, hostDecode_console h.bounded h.own, fun line hline => ?_, fun c hc => ?_⟩
  · rw [pieces_console h.own] at hline
    rcases List.mem_append.mp hline with hline | hline
    · obtain ⟨p, -, rfl⟩ := List.mem_map.mp hline
      exact .inl (guestLine_frame p)
    · exact .inr (h.own line hline)
  · rcases List.mem_append.mp hc with hc | hc
    · obtain ⟨p, -, hp⟩ := List.mem_flatMap.mp hc
      exact inert_frame hp
    · obtain ⟨line, hline, hc⟩ := List.mem_flatten.mp hc
      exact (h.own line hline).spec.2.2 c hc

namespace World

/-- A running guest is armed, and its bytes are in frames and in the buffer; when it is out, they
are in frames. -/
inductive Kept (before : List UInt8) (w : World) : Prop
  | running (payloads : List (List UInt8)) : w.control = .guest → w.mon.kg.armed = true →
      Emitting before payloads w.written w.mon.log → Kept before w
  | ended (payloads own : List (List UInt8)) : w.control ≠ .guest → Closed before payloads own w.mon.log.console →
      w.written = payloads.flatten → Kept before w

theorem Kept.logged {before : List UInt8} {w : World} (h : w.Kept before) : w.Logged before := by
  cases h with
  | running payloads hguest _ hemit =>
      obtain ⟨added, hconsole, hdecode, hlines, hinert⟩ := hemit.closed.read
      exact ⟨added, _, hconsole, hdecode, by rw [pending, if_pos hguest, hemit.bytes], hlines, hinert⟩
  | ended payloads own hout hclosed hwritten =>
      obtain ⟨added, hconsole, hdecode, hlines, hinert⟩ := hclosed.read
      exact ⟨added, _, hconsole, hdecode, by rw [pending, if_neg hout, List.append_nil, hwritten], hlines, hinert⟩

/-- A logged console decodes to what is on it. -/
theorem Logged.decoded {before : List UInt8} {w : World} {payloads own : List (List UInt8)} (h : w.Logged before)
    (hclosed : Closed before payloads own w.mon.log.console) : w.written = payloads.flatten ++ w.pending := by
  obtain ⟨added, decoded, hconsole, hdecode, hwritten, -⟩ := h
  obtain ⟨added', hconsole', hdecode', -⟩ := hclosed.read
  rw [hconsole', List.append_cancel_left_eq] at hconsole
  rw [hconsole, hdecode] at hdecode'
  rw [hwritten, Option.some.inj hdecode']

end World

/-! ## One exit -/

theorem not_shadowed {m : Monitor} {e : Exit} (h : e.serial = none) : ¬ Shadowed m e := by
  rintro ⟨hsome, -⟩
  rw [h] at hsome
  cases hsome

/-- What an exit of an armed guest does to its log, and how it ends. -/
inductive LogStep (m : Monitor) (e : Exit) : Monitor × Leave → Prop
  | stays {m' : Monitor} {l : Leave} : l.control = .guest → m'.kg.armed = true → m'.log = m.log →
      e.serial = none → ¬ Abandons m e → LogStep m e (m', l)
  | stored {m' : Monitor} {l : Leave} {b : UInt8} : l.control = .guest → m'.kg.armed = true →
      m'.log = kgLogPush m.log b → e.serial = some b → ¬ Abandons m e → ¬ Shadowed m e → LogStep m e (m', l)
  | shadowed {m' : Monitor} {l : Leave} : l.control = .guest → m'.log = m.log → Shadowed m e → LogStep m e (m', l)
  | relaunched {m' : Monitor} {l : Leave} : l.control = .guest → m'.kg.armed = true → m'.log = kgLogReset m.log →
      e.serial = none → Abandons m e → LogStep m e (m', l)
  | torn (m' : Monitor) (own : List (List UInt8)) {r : Report} : (∀ line ∈ own, MonitorLine line) →
      m'.log.console = (kgLogFlush m.log).console ++ own.flatten → ¬ Abandons m e → ¬ Shadowed m e →
      LogStep m e (m'.returnToKernel r)
  | left (m' : Monitor) {r : Report} : m'.log = m.log → e.serial = none → Abandons m e →
      LogStep m e (m'.returnToKernel r)

section exits

variable {m : Monitor} {e : Exit}

/-- A report through `kg_teardown`. -/
theorem LogStep.returned (m' : Monitor) (hlog : m'.log = m.log) (hkeep : ¬ Abandons m e) (hseen : ¬ Shadowed m e)
    {code word : Reg} : LogStep m e (m'.kgReturn code word) :=
  .torn m'.kgTeardown [] (by simp)
    (by rw [List.flatten_nil, List.append_nil, ← hlog]; rfl) hkeep hseen

theorem serial_of_class (h : classifyExit e.esr ≠ .stageTwoAbort) : e.serial = none :=
  if_neg fun hs => h hs.1

theorem logStep_kguestWfx (hwfx : classifyExit e.esr = .wfx) :
    LogStep m e (m.kguestWfx e) := by
  have hserial : e.serial = none := serial_of_class (by rw [hwfx]; decide)
  have hkeep : ¬ Abandons m e := by simp only [Abandons, hwfx, not_false_eq_true]
  unfold kguestWfx
  split
  · exact .returned _ rfl hkeep (not_shadowed hserial)
  · split
    · exact .returned _ rfl hkeep (not_shadowed hserial)
    · exact .returned _ rfl hkeep (not_shadowed hserial)

/-- A store in the four cases of `kguestStore`. -/
theorem logStep_kguestStore (harmed : m.kg.armed = true) (hcap : ¬ KG_TRAP_CAP < m.kg.trapCount + 1)
    (habort : classifyExit e.esr = .stageTwoAbort) (hdata : esrEc e.esr = EC_DABT_LOW)
    (hemulatable : dabtIsEmulatable e.esr = true) (hwrite : esrWnr e.esr = 1) (f : Frame) :
    LogStep m e
      ({ m with kg := { m.kg with
          trapCount := m.kg.trapCount + 1, lastFaultIpa := e.faultIpa, lastEsr := e.esr } }.kguestStore
        e.faultIpa (e.far &&& 0xFFF) (e.frame.read (dabtIssSrt e.esr)), .retry f) := by
  have hkeep : ¬ Abandons m e := by simp only [Abandons, habort, not_false_eq_true]
  have hserial : e.serial = if inPl011Block e.faultIpa ∧ pageOf e.faultIpa = PL011_PAGE ∧ e.far &&& 0xFFF = PL011_DR
      then some (.ofNat (e.frame.read (dabtIssSrt e.esr) &&& 0xFF).toNat) else none := by
    simp only [Exit.serial, habort, hdata, hemulatable, hwrite, true_and]
  unfold kguestStore
  dsimp only
  split
  case isTrue hdoor =>
    refine .stays rfl harmed rfl ?_ hkeep
    rw [hserial, if_neg]
    rintro ⟨-, hpage, -⟩
    exact absurd (hpage.symm.trans hdoor) (by decide)
  case isFalse =>
    split
    case isTrue hprobe =>
      by_cases hsome : e.serial.isSome = true
      · exact .shadowed rfl rfl ⟨hsome, BitVec.not_lt.mp hcap, hprobe⟩
      · exact .stays rfl harmed rfl (Option.not_isSome_iff_eq_none.mp hsome) hkeep
    case isFalse hprobe =>
      split
      case isTrue hport =>
        exact .stored rfl harmed rfl (by rw [hserial, if_pos hport]) hkeep fun hshadow => hprobe hshadow.2.2
      case isFalse hport => exact .stays rfl harmed rfl (by rw [hserial, if_neg hport]) hkeep

theorem logStep_kguestAbort (harmed : m.kg.armed = true) (habort : classifyExit e.esr = .stageTwoAbort) :
    LogStep m e (m.kguestAbort e) := by
  have hkeep : ¬ Abandons m e := by simp only [Abandons, habort, not_false_eq_true]
  unfold kguestAbort
  dsimp only
  split
  case isTrue hcap =>
    have hseen : ¬ Shadowed m e := fun hshadow => BitVec.not_lt.mpr hshadow.2.1 hcap
    exact .returned _ (by rfl) hkeep hseen
  case isFalse hcap =>
    split
    case isTrue hiabt =>
      have hserial : e.serial = none := if_neg fun hs => absurd (hs.2.1.symm.trans hiabt) (by decide)
      exact .returned _ (by rfl) hkeep (not_shadowed hserial)
    case isFalse hiabt =>
      split
      case isTrue hwalk =>
        have hserial : e.serial = none := if_neg fun hs => hwalk (by
          have hem := hs.2.2.1
          simp only [dabtIsEmulatable, Bool.and_eq_true, decide_eq_true_eq] at hem
          exact hem.2)
        exact .returned _ (by rfl) hkeep (not_shadowed hserial)
      case isFalse =>
        split
        case isTrue houtside =>
          have hserial : e.serial = none := if_neg fun hs => houtside (.inl hs.2.2.2.2.1)
          exact .returned _ (by rfl) hkeep (not_shadowed hserial)
        case isFalse =>
          split
          case isTrue hnisv =>
            have hserial : e.serial = none := if_neg fun hs => by rw [hnisv] at hs; exact Bool.false_ne_true hs.2.2.1
            have hown : ∀ line ∈ ["el2: nisv-abort ipa=".toUTF8.toList ++ diagWriteHex e.faultIpa ++ [LF]],
                MonitorLine line := fun line hline => List.mem_singleton.mp hline ▸ .nisv e.faultIpa
            refine .torn _ _ hown ?_ hkeep (not_shadowed hserial)
            rw [List.flatten_singleton]
            rfl
          case isFalse hemulatable =>
            split
            case isTrue hwrite =>
              have hdata := (ec_of_abort habort).resolve_right hiabt
              exact logStep_kguestStore harmed hcap habort hdata (Bool.not_eq_false _ ▸ hemulatable) hwrite _
            case isFalse hread =>
              exact .stays rfl harmed rfl (if_neg fun hs => hread hs.2.2.2.1) hkeep

theorem logStep_hvcHandler (harmed : m.kg.armed = true) (hhvc : classifyExit e.esr = .hvc) :
    LogStep m e (m.hvcHandler e) := by
  have hserial : e.serial = none := serial_of_class (by rw [hhvc]; decide)
  unfold hvcHandler
  dsimp only
  split
  -- those that arm, and the guest goes on
  case h_1 himm | h_3 himm | h_5 himm | h_7 himm | h_9 himm | h_13 himm | h_16 himm =>
    exact .stays rfl harmed rfl hserial (by simp only [Abandons, hhvc, himm, not_false_eq_true])
  case h_11 himm =>
    split
    case isTrue hnone => exact .left _ rfl hserial (by simp only [Abandons, hhvc, himm]; exact hnone)
    case isFalse hsome => exact .stays rfl harmed rfl hserial (by simp only [Abandons, hhvc, himm]; exact hsome)
  -- those that report
  case h_2 himm | h_4 himm | h_6 himm | h_8 himm | h_10 himm | h_12 himm | h_14 himm | h_15 himm =>
    exact .left _ rfl hserial (by simp only [Abandons, hhvc, himm])
  case h_17 himm => exact .relaunched rfl rfl rfl hserial (by simp only [Abandons, hhvc, himm])
  case h_18 himm =>
    have hkeep : ¬ Abandons m e := by simp only [Abandons, hhvc, himm, not_false_eq_true]
    rw [if_pos harmed]
    unfold kguestDone
    dsimp only
    split
    · exact .returned _ rfl hkeep (not_shadowed hserial)
    · exact .stays rfl harmed rfl hserial hkeep
  case h_19 => exact .left _ rfl hserial (by simp only [Abandons, hhvc])

theorem logStep_syncHandler (harmed : m.kg.armed = true) : LogStep m e (m.syncHandler e) := by
  unfold syncHandler
  cases hclass : classifyExit e.esr with
  | stageTwoAbort =>
      simp only [if_pos harmed]
      exact logStep_kguestAbort harmed hclass
  | wfx =>
      simp only [if_pos harmed]
      exact logStep_kguestWfx hclass
  | undef =>
      have hserial : e.serial = none := serial_of_class (by rw [hclass]; decide)
      dsimp only
      split
      case isTrue harm =>
        refine .stays rfl harmed rfl hserial ?_
        simp only [Abandons, hclass, harm, Bool.true_eq_false, not_false_eq_true]
      case isFalse harm =>
        refine .left _ rfl hserial ?_
        simp only [Abandons, hclass]
        exact Bool.eq_false_of_not_eq_true harm
  | sys64 =>
      have hserial : e.serial = none := serial_of_class (by rw [hclass]; decide)
      dsimp only
      split
      case isTrue harm =>
        unfold el2SysregEmulate
        split
        case isTrue hbad => exact .left _ rfl hserial (by simp only [Abandons, hclass]; exact .inr hbad)
        case isFalse hgood =>
          refine .stays rfl harmed rfl hserial ?_
          simp only [Abandons, hclass]
          rintro (hoff | hbad)
          · rw [harm] at hoff
            cases hoff
          · exact hgood hbad
      case isFalse harm =>
        refine .left _ rfl hserial ?_
        simp only [Abandons, hclass]
        exact .inl (Bool.eq_false_of_not_eq_true harm)
  | smc =>
      exact .left _ rfl (serial_of_class (by rw [hclass]; decide)) (by simp only [Abandons, hclass])
  | hvc => exact logStep_hvcHandler harmed hclass

end exits

/-! ## Whole runs -/

theorem Emitting.reset {before bytes : List UInt8} {payloads : List (List UInt8)} {s : Emitter}
    (h : Emitting before payloads bytes s) (hz : s.len = 0) : kgLogReset s = s ∧ payloads.flatten = bytes := by
  have hbytes := h.bytes
  rw [hz, List.take_zero, List.append_nil] at hbytes
  exact ⟨by rw [kgLogReset, ← hz], hbytes⟩

/-- Back in the kernel the monitor has added nothing, or said that it parks. -/
theorem returnToKernel_closed {before : List UInt8} {payloads own : List (List UInt8)} {m : Monitor} (r : Report)
    (h : Closed before payloads own m.log.console) : (m.returnToKernel r).2.control ≠ .guest ∧
      ∃ own', Closed before payloads own' (m.returnToKernel r).1.log.console := by
  unfold returnToKernel
  split
  · have hown : ∀ line ∈ ["el2: B0 UNINITIALIZED (pre-L2.0 EL2 entry) -- parking, code=".toUTF8.toList ++
        diagWriteHex r.code ++ " x1=".toUTF8.toList ++ diagWriteHex r.word ++ [LF]], MonitorLine line :=
      fun line hline => List.mem_singleton.mp hline ▸ .parking r.code r.word
    have hmore := h.more hown
    rw [List.flatten_singleton] at hmore
    exact ⟨nofun, _, hmore⟩
  · exact ⟨nofun, own, h⟩

namespace World

variable {before : List UInt8} {w : World} {e : Exit}

/-- The state after an exit of a running guest. -/
theorem step_guest (hguest : w.control = .guest) : w.step e =
    ⟨(w.mon.syncHandler e).1, w.taken ++ [e], (w.mon.syncHandler e).2.control⟩ := by
  rw [step, hguest]

/-- The exit counts when the guest comes back from it. -/
theorem written_step (hguest : w.control = .guest) : (w.step e).written =
    if (w.mon.syncHandler e).2.control = .guest then w.written ++ e.serial.toList else w.written := by
  rw [step_guest hguest, written, written, returned, returned, if_pos hguest]
  dsimp only
  split
  · rw [List.filterMap_append]
    cases hs : e.serial with
    | none => simp [hs]
    | some b => simp [hs]
  · rw [List.dropLast_concat]

theorem step_kept (hkeeps : w.Keeps e) (h : w.Kept before) : (w.step e).Kept before := by
  cases h with
  | ended payloads own hout hclosed hwritten =>
      have hstep : w.step e = w := by
        rw [step]
        split
        · next hguest => exact absurd hguest hout
        · rfl
      rw [hstep]
      exact .ended payloads own hout hclosed hwritten
  | running payloads hguest harmed hemit =>
      obtain ⟨hlen, hseen⟩ := hkeeps hguest
      have hlog := logStep_syncHandler (e := e) harmed
      have hwritten := written_step (e := e) hguest
      have hstep := step_guest (e := e) hguest
      generalize w.mon.syncHandler e = r at hlog hwritten hstep
      have hempty : Abandons w.mon e → w.mon.log.len = 0 := fun habandons =>
        Nat.eq_zero_of_not_pos fun hpos => hlen hpos habandons
      cases hlog with
      | stays hl harm hsame hserial _ =>
          rw [if_pos hl, hserial, Option.toList_none, List.append_nil] at hwritten
          refine .running payloads ?_ ?_ ?_
          · rw [hstep]; exact hl
          · rw [hstep]; exact harm
          · rw [hwritten, hstep, hsame]
            exact hemit
      | @stored _ _ b hl harm hpush hserial _ _ =>
          rw [if_pos hl, hserial, Option.toList_some] at hwritten
          obtain ⟨payloads', hemit'⟩ := hemit.push b
          refine .running payloads' ?_ ?_ ?_
          · rw [hstep]; exact hl
          · rw [hstep]; exact harm
          · rw [hwritten, hstep, hpush]
            exact hemit'
      | shadowed _ _ hshadow => exact absurd hshadow hseen
      | relaunched hl harm hreset hserial habandons =>
          rw [if_pos hl, hserial, Option.toList_none, List.append_nil] at hwritten
          refine .running payloads ?_ ?_ ?_
          · rw [hstep]; exact hl
          · rw [hstep]; exact harm
          · rw [hwritten, hstep, hreset, (hemit.reset (hempty habandons)).1]
            exact hemit
      | @torn m' own r hown hconsole _ _ =>
          obtain ⟨payloads', hemit', hz⟩ := hemit.flush
          have hclosed : Closed before payloads' own m'.log.console := by
            rw [hconsole]
            exact hemit'.closed.more hown
          obtain ⟨hout, own', hclosed'⟩ := returnToKernel_closed r hclosed
          rw [if_neg hout, ← (hemit'.reset hz).2] at hwritten
          refine .ended payloads' own' ?_ ?_ hwritten
          · rw [hstep]; exact hout
          · rw [hstep]; exact hclosed'
      | left m' hsame _ habandons =>
          have hclosed : Closed before payloads [] m'.log.console := by
            rw [hsame]
            exact hemit.closed
          obtain ⟨hout, own', hclosed'⟩ := returnToKernel_closed _ hclosed
          rw [if_neg hout, ← (hemit.reset (hempty habandons)).2] at hwritten
          refine .ended payloads own' ?_ ?_ hwritten
          · rw [hstep]; exact hout
          · rw [hstep]; exact hclosed'

/-- An exit that abandons bytes, or whose store the probe page takes, leaves the host without them. -/
theorem step_loses (hbad : ¬ w.Keeps e) (h : w.Kept before) : ¬ (w.step e).Logged before := by
  have hguest : w.control = .guest := not_not.mp fun hout => hbad fun hguest => absurd hguest hout
  have hloses : ¬ ((0 < w.mon.log.len → ¬ Abandons w.mon e) ∧ ¬ Shadowed w.mon e) := fun hkeeps => hbad fun _ => hkeeps
  cases h with
  | ended _ _ hout => exact absurd hguest hout
  | running payloads _ harmed hemit =>
      intro hlogged
      have hlog := logStep_syncHandler (e := e) harmed
      have hwritten := written_step (e := e) hguest
      have hstep := step_guest (e := e) hguest
      generalize w.mon.syncHandler e = r at hlog hwritten hstep
      -- bytes that were held and are not on the console
      have hheld : e.serial = none → w.written ≠ payloads.flatten := by
        intro hserial heq
        have hlen : 0 < w.mon.log.len := by
          refine Nat.pos_of_ne_zero fun hz => hloses ⟨fun hpos => absurd hz (Nat.ne_of_gt hpos), not_shadowed hserial⟩
        have htake : w.mon.log.buf.val.take w.mon.log.len = [] :=
          List.append_right_eq_self.mp (hemit.bytes.trans heq)
        have hlength := congrArg List.length htake
        rw [List.length_take, w.mon.log.buf.property, List.length_nil] at hlength
        have hheld := hemit.held
        omega
      cases hlog with
      | stays _ _ _ hserial hkeep => exact hloses ⟨fun _ => hkeep, not_shadowed hserial⟩
      | stored _ _ _ _ hkeep hseen => exact hloses ⟨fun _ => hkeep, hseen⟩
      | torn _ _ _ _ hkeep hseen => exact hloses ⟨fun _ => hkeep, hseen⟩
      | shadowed hl hsame hshadow =>
          obtain ⟨b, hserial⟩ := Option.isSome_iff_exists.mp hshadow.1
          have hread := hlogged.decoded (by rw [hstep, hsame]; exact hemit.closed)
          rw [hwritten, if_pos hl, hserial, Option.toList_some, pending, hstep, if_pos hl, hsame, hemit.bytes] at hread
          exact absurd (List.append_right_eq_self.mp hread) (List.cons_ne_nil _ _)
      | relaunched hl _ hreset hserial _ =>
          have hread := hlogged.decoded (by rw [hstep, hreset]; exact hemit.closed)
          rw [hwritten, if_pos hl, hserial, Option.toList_none, List.append_nil, pending, hstep, if_pos hl,
            hreset] at hread
          exact hheld hserial (hread.trans (List.append_nil _))
      | left m' hsame hserial _ =>
          have hclosed : Closed before payloads [] m'.log.console := by
            rw [hsame]
            exact hemit.closed
          obtain ⟨hout, own', hclosed'⟩ := returnToKernel_closed _ hclosed
          have hread := hlogged.decoded (by rw [hstep]; exact hclosed')
          rw [hwritten, if_neg hout, pending, hstep, if_neg hout, List.append_nil] at hread
          exact hheld hserial hread

/-- The host's hypercall arms the guest and begins its log. -/
theorem launch_kept (m : Monitor) (l : Launch) (host : Exit) : (launch m l host).Kept m.log.console := by
  rw [launch, syncHandler_launch]
  exact .running [] rfl rfl ⟨(List.append_nil _).symm, by simp, Nat.zero_le _, rfl⟩

end World

/-- The guest writes one byte. -/
def letterA : Exit := sampleStore PL011_PAGE 0x41

/-- A byte, then the guest is torn down: the frame is on the console. -/
example : (exec World.step (World.launch sampleMonitor sampleLaunch (sampleExit 0 0 0 0))
    [letterA, sampleExit 0x5A000011 0 1 0]).mon.log.console = frame [0x41] := by decide +kernel

end Yuva.El2
