/-
# `Yuva.El2.Preempt` — two guests under the timer

The monitor runs two guests in turns.  The only interrupt it takes is its own timer's
(`aarch64_el2_timer_handler`): each tick records the slot that ran, folds the switch into the
head, installs the other slot's second-stage root and resumes at the other slot's entry; the
sixteenth ends the run with a verdict.  Between two ticks a guest shows that it ran by storing to
its own device page, which traps and is counted.

A run: the kernel arms the window, then exits and ticks come in any order.  What the guests did
is read off these events alone (`Turns`): how many ticks there were, and how many stores each slot
made to its own page while it was the one that ran.  `Cells` says the monitor's cells agree.
-/
import Yuva.El2.Verdict
import Yuva.El2.Windows
import Mathlib.Data.List.Induction

namespace Yuva.El2

open Monitor

/-! ## The timer -/

namespace Monitor

def CNTHP_PPI : BitVec 32 := 26
def GIC_INTID_MASK : BitVec 32 := 0x3FF
def K_SMOKE_TICKS : Reg := 4
def EOI_HARD_CAP : Reg := 4 * .ofNat 64 K_MAX_FRAMES

def FAIL_SCHED_TIMER_BAD_INTID : Reg := 0x000005CE00000009
def FAIL_SCHED_TIMER_ISTATUS : Reg := 0x000005CE0000000A
def FAIL_SCHED_TIMER_STORM : Reg := 0x000005CE0000000B
def FAIL_SCHED_TIMER_UNARMED : Reg := 0x000005CE0000000C

/-- `disarm_cnthp_window_el2`. -/
def disarmCnthpWindow (m : Monitor) : Monitor :=
  { m with sched := { m.sched with tmode := TMODE_OFF }, regs := m.regs.disarmStage2 }

/-- `disarm_sched_el2`. -/
def disarmSched (m : Monitor) : Monitor :=
  { m with sched := { m.sched with armed := false }, regs := m.regs.disarmStage2 }

/-- The smoke window: four ticks are counted, nothing is switched. -/
def smokeTick (m : Monitor) (frame : Frame) (iar : BitVec 32) (istatusClear : Bool) : Monitor × Leave :=
  if istatusClear = false then m.disarmCnthpWindow.returnToKernel ⟨FAIL_SCHED_TIMER_ISTATUS, iar.setWidth 64⟩
  else
    let n := m.sched.eoi + 1
    let m := { m with sched := { m.sched with eoi := n } }
    if n > EOI_HARD_CAP then m.disarmCnthpWindow.returnToKernel ⟨FAIL_SCHED_TIMER_STORM, n⟩
    else if n ≥ K_SMOKE_TICKS then m.disarmCnthpWindow.returnToKernel ⟨0, n⟩
    else (m, .retry frame)

/-- The window of the two slots. -/
def preemptTick (m : Monitor) (frame : Frame) (iar : BitVec 32) (istatusClear : Bool) : Monitor × Leave :=
  let ((_, vttbr, entry), c) := m.sched.noteSwitch
  let m := { m with sched := c }
  if c.framesDone ≥ .ofNat 64 K_MAX_FRAMES then m.disarmCnthpWindow.disarmSched.returnToKernel c.done
  else if istatusClear = false then
    m.disarmCnthpWindow.disarmSched.returnToKernel ⟨FAIL_SCHED_TIMER_ISTATUS, iar.setWidth 64⟩
  else
    let n := c.eoi + 1
    let m := { m with sched := { c with eoi := n } }
    if n > EOI_HARD_CAP then m.disarmCnthpWindow.disarmSched.returnToKernel ⟨FAIL_SCHED_TIMER_STORM, n⟩
    else ({ m with regs := { m.regs with vttbrEl2 := vttbr } }, .retry { frame with elr := entry })

/-- `aarch64_el2_timer_handler`: `iar` is what the acknowledge read, `istatusClear` what the
read-back said after the deadline was armed again. -/
def timerHandler (m : Monitor) (frame : Frame) (iar : BitVec 32) (istatusClear : Bool) : Monitor × Leave :=
  if iar &&& GIC_INTID_MASK ≠ CNTHP_PPI then
    m.disarmCnthpWindow.disarmSched.returnToKernel ⟨FAIL_SCHED_TIMER_BAD_INTID, iar.setWidth 64⟩
  else if m.sched.tmode = TMODE_SMOKE then m.smokeTick frame iar istatusClear
  else if m.sched.tmode = TMODE_PREEMPT then m.preemptTick frame iar istatusClear
  else m.disarmCnthpWindow.disarmSched.returnToKernel ⟨FAIL_SCHED_TIMER_UNARMED, m.sched.tmode⟩

end Monitor

/-! ## Runs -/

/-- What brings control to EL2. -/
inductive Event where
  | sync (e : Exit)
  | timer (frame : Frame) (iar : BitVec 32) (istatusClear : Bool)

/-- A hypercall. -/
def Event.IsHvc : Event → Prop
  | .sync e => classifyExit e.esr = .hvc
  | .timer _ _ _ => False

instance : ∀ ev : Event, Decidable ev.IsHvc
  | .sync e => inferInstanceAs (Decidable (classifyExit e.esr = .hvc))
  | .timer _ _ _ => inferInstanceAs (Decidable False)

/-- The monitor, what it has taken since the window was armed, and who is in control. -/
structure Slots where
  hyp : Hyp
  taken : List Event
  control : Control

namespace Slots

def handle (h : Hyp) : Event → Hyp × Leave
  | .sync e => h.syncHandlerWithWindows e
  | .timer frame iar istatusClear => h.lift (h.mon.timerHandler frame iar istatusClear)

/-- One event; none is taken once the kernel is back. -/
def step (w : Slots) (ev : Event) : Slots :=
  match w.control with
  | .guest =>
      let r := handle w.hyp ev
      { hyp := r.1, taken := w.taken ++ [ev], control := r.2.control }
  | _ => w

end Slots

theorem Slots.exec_host {w : Slots} {rep : Report} (h : w.control = .host rep) (es : List Event) :
    Run.exec Slots.step w es = w := by
  have hstay (ev : Event) : w.step ev = w := by rw [Slots.step, h]
  exact Run.exec_still hstay es

/-- The arguments of `HVC #12`. -/
structure SchedLaunch where
  vtcr : Reg
  vttbr0 : Reg
  vttbr1 : Reg
  entry0 : Reg
  entry1 : Reg
deriving DecidableEq

theorem x2_lt : 2 < 31 := by decide

theorem x3_lt : 3 < 31 := by decide

theorem x4_lt : 4 < 31 := by decide

namespace SchedLaunch

/-- The registers of the kernel's hypercall. -/
def regs (l : SchedLaunch) (gpr : Vector Reg 31) : Vector Reg 31 :=
  ((((gpr.set 0 l.vtcr x0_lt).set 1 l.vttbr0 x1_lt).set 2 l.vttbr1 x2_lt).set 3 l.entry0 x3_lt).set 4 l.entry1 x4_lt

/-- The kernel's hypercall. -/
def exit (l : SchedLaunch) (host : Exit) : Exit :=
  { host with
    esr := (EC_HVC64 <<< 26) ||| ESR_IL ||| 12
    frame := { host.frame with gpr := l.regs host.frame.gpr } }

/-- The vector saves the kernel's frame at the top of the stack, then the window is armed. -/
def launch (l : SchedLaunch) (h : Hyp) (host : Exit) : Slots :=
  let r := { h with mon := { h.mon with b0 := (l.exit host).frame } }.syncHandlerWithWindows (l.exit host)
  { hyp := r.1, taken := [], control := r.2.control }

def root (l : SchedLaunch) (slot : Nat) : Reg := if slot = 0 then l.vttbr0 else l.vttbr1

end SchedLaunch

/-! ## Turns -/

/-- Ticks so far, and the stores of each slot to its own page. -/
structure Turns where
  ticks : Nat
  stores : Nat → Nat

namespace Turns

def slot (t : Turns) : Nat := t.ticks % 2

def deviceOf (slot : Nat) : Reg := if slot = 0 then Hyp.M27_DEVICE_IPA_0 else Hyp.M27_DEVICE_IPA_1

/-- A store of the running slot to its own page. -/
def Counts (slot : Nat) (e : Exit) : Prop :=
  classifyExit e.esr = .stageTwoAbort ∧ e.faultIpa = deviceOf slot ∧ dabtIsEmulatable e.esr = true ∧
    esrWnr e.esr = 1

instance (slot : Nat) (e : Exit) : Decidable (Counts slot e) := inferInstanceAs (Decidable (_ ∧ _ ∧ _ ∧ _))

def step (t : Turns) : Event → Turns
  | .timer _ _ _ => { t with ticks := t.ticks + 1 }
  | .sync e => if Counts t.slot e then { t with stores := Function.update t.stores t.slot (t.stores t.slot + 1) } else t

/-- What the events say. -/
def of (es : List Event) : Turns := Run.exec step ⟨0, fun _ => 0⟩ es

theorem of_snoc (es : List Event) (ev : Event) : of (es ++ [ev]) = (of es).step ev := Run.exec_append _ _ _ _

end Turns

/-! ## The cells -/

/-- The monitor's cells after these turns. -/
structure Cells (l : SchedLaunch) (t : Turns) (c : SchedCtx) : Prop where
  armed : c.armed = true
  tmode : c.tmode = TMODE_PREEMPT
  cur : c.curSlot = .ofNat 64 t.slot
  frames : c.framesDone = .ofNat 64 (t.ticks / 2)
  yields : c.yieldsDone = .ofNat 64 t.ticks
  vmid : c.vmid = #v[0, 1]
  vttbr : c.vttbr = #v[l.vttbr0, l.vttbr1]
  entryPc : c.entryPc = #v[l.entry0, l.entry1]
  slotTicks : c.slotTicks = #v[M27_SLOT0_TICKS, M27_SLOT1_TICKS]
  tLogical : c.tLogical = (m27ReplayHead t.ticks).tLogical
  frameSeq : c.frameSeq = (m27ReplayHead t.ticks).frameSeq
  head : c.head = (m27ReplayHead t.ticks).clean
  order : ∀ i (hi : i < 16), i < t.ticks → c.order[i] = SchedCtx.expectAt i
  count0 : c.deviceCount[0] = .ofNat 64 (t.stores 0)
  count1 : c.deviceCount[1] = .ofNat 64 (t.stores 1)

theorem m27ReplayHead_succ (n : Nat) : m27ReplayHead (n + 1) = (m27ReplayHead n).step m27FramePlan n := by
  rw [m27ReplayHead, List.range_succ, List.foldl_append]
  rfl

theorem replay_cur (n : Nat) : (m27ReplayHead n).cur = n % 2 := by
  induction n with
  | zero => rfl
  | succ n ih =>
      rw [m27ReplayHead_succ]
      show nextSlot (m27ReplayHead n).cur = _
      rw [ih, nextSlot, N_SLOTS, if_neg (by omega)]
      omega

/-- The number of a slot's address space is the slot. -/
theorem vmidFor_eq {c : SchedCtx} (h : c.vmid = #v[0, 1]) {s : Nat} (hs : s < 2) : c.vmidFor s = .ofNat 64 s := by
  have hcases : s = 0 ∨ s = 1 := by omega
  rcases hcases with rfl | rfl
  · simp only [SchedCtx.vmidFor, h]
    rfl
  · simp only [SchedCtx.vmidFor, h]
    rfl

namespace Cells

variable {l : SchedLaunch} {t : Turns} {c : SchedCtx}

theorem currentSlot_eq (h : Cells l t c) : c.currentSlot = t.slot := by
  have hlt : t.slot < 2 := Nat.mod_lt _ (by decide)
  rw [SchedCtx.currentSlot, h.cur, BitVec.toNat_ofNat, N_SLOTS, Nat.mod_eq_of_lt (a := t.slot) (by omega),
    Nat.mod_eq_of_lt hlt]

theorem deviceCount_eq (h : Cells l t c) : c.deviceCount = #v[.ofNat 64 (t.stores 0), .ofNat 64 (t.stores 1)] := by
  refine Vector.ext fun i hi => ?_
  have hcases : i = 0 ∨ i = 1 := by omega
  rcases hcases with rfl | rfl
  · exact h.count0
  · exact h.count1

/-- The decision a tick folds in is the one the replay folds in. -/
theorem fold_eq (h : Cells l t c) {nxt : Nat} (hnxt : nxt = (t.ticks + 1) % 2) :
    Mem.Prov.chainMix c.head (Mem.Prov.provHash (SchedDecision.canon
      ⟨c.frameSeq, .ofNat nxt, (c.vmidFor t.slot).setWidth 16, (c.vmidFor nxt).setWidth 16, c.tLogical⟩)) =
      (m27ReplayHead (t.ticks + 1)).clean := by
  have hslot : t.slot < 2 := Nat.mod_lt _ (by decide)
  have hlt : nxt < 2 := by omega
  rw [m27ReplayHead_succ, h.head, h.frameSeq, h.tLogical, vmidFor_eq h.vmid hslot, vmidFor_eq h.vmid hlt]
  show _ = Mem.Prov.chainMix _ (Mem.Prov.provHash (SchedDecision.canon
    ⟨_, .ofNat (nextSlot (m27ReplayHead t.ticks).cur), m27FramePlan.vmid[(m27ReplayHead t.ticks).cur % 2],
      m27FramePlan.vmid[nextSlot (m27ReplayHead t.ticks).cur % 2], _⟩))
  have hcases : t.ticks % 2 = 0 ∨ t.ticks % 2 = 1 := by omega
  rcases hcases with hpar | hpar
  · have hone : nxt = 1 := by omega
    simp only [replay_cur, hpar, hone, Turns.slot]
    rfl
  · have hzero : nxt = 0 := by omega
    simp only [replay_cur, hpar, hzero, Turns.slot]
    rfl

/-- A tick records the slot that ran and passes on to the other one. -/
theorem noteSwitch (h : Cells l t c) (hfew : t.ticks < 16) :
    Cells l { t with ticks := t.ticks + 1 } c.noteSwitch.2 ∧
      c.noteSwitch.1 =
        ((t.ticks + 1) % 2, l.root ((t.ticks + 1) % 2), if (t.ticks + 1) % 2 = 0 then l.entry0 else l.entry1) := by
  have hslot : t.slot < 2 := Nat.mod_lt _ (by decide)
  have hnext : nextSlot t.slot = (t.ticks + 1) % 2 := by
    rw [nextSlot, N_SLOTS, if_neg (by omega), Turns.slot]
    omega
  have hyi : c.yieldsDone.toNat = t.ticks := by
    rw [h.yields, BitVec.toNat_ofNat, Nat.mod_eq_of_lt (by omega)]
  have hcases : t.ticks % 2 = 0 ∨ t.ticks % 2 = 1 := by omega
  have hclock : c.tLogical + c.slotTicksFor t.slot = (m27ReplayHead (t.ticks + 1)).tLogical := by
    rw [m27ReplayHead_succ, h.tLogical]
    show _ = (m27ReplayHead t.ticks).tLogical + m27FramePlan.slotTicks[(m27ReplayHead t.ticks).cur % 2]
    rcases hcases with hpar | hpar
    · simp only [SchedCtx.slotTicksFor, h.slotTicks, Turns.slot, replay_cur, hpar]
      rfl
    · simp only [SchedCtx.slotTicksFor, h.slotTicks, Turns.slot, replay_cur, hpar]
      rfl
  have hseq : (if (t.ticks + 1) % 2 = 0 then c.frameSeq + 1 else c.frameSeq) = (m27ReplayHead (t.ticks + 1)).frameSeq := by
    have hcur : nextSlot (m27ReplayHead t.ticks).cur = (t.ticks + 1) % 2 := (congrArg nextSlot (replay_cur _)).trans hnext
    rw [m27ReplayHead_succ, h.frameSeq]
    show _ = if nextSlot (m27ReplayHead t.ticks).cur = 0 then _ else _
    rw [hcur]
  have hframes : (if (t.ticks + 1) % 2 = 0 then c.framesDone + 1 else c.framesDone) = .ofNat 64 ((t.ticks + 1) / 2) := by
    rw [h.frames]
    rcases hcases with hpar | hpar
    · rw [if_neg (by omega), show (t.ticks + 1) / 2 = t.ticks / 2 by omega]
    · rw [if_pos (by omega), show (t.ticks + 1) / 2 = t.ticks / 2 + 1 by omega, BitVec.ofNat_add]
      rfl
  have heq : c.noteSwitch =
      (((t.ticks + 1) % 2, c.vttbrFor ((t.ticks + 1) % 2), c.entryPcFor ((t.ticks + 1) % 2)),
        { c with
          order := c.order.setIfInBounds t.ticks (c.vmidFor t.slot)
          head := (m27ReplayHead (t.ticks + 1)).clean
          yieldsDone := .ofNat 64 (t.ticks + 1)
          tLogical := (m27ReplayHead (t.ticks + 1)).tLogical
          framesDone := .ofNat 64 ((t.ticks + 1) / 2)
          frameSeq := (m27ReplayHead (t.ticks + 1)).frameSeq
          curSlot := .ofNat 64 ((t.ticks + 1) % 2) }) := by
    rw [← h.fold_eq rfl, ← hclock, ← hseq, ← hframes]
    simp only [SchedCtx.noteSwitch, h.currentSlot_eq, hnext, hyi, if_pos (show t.ticks < MAX_YIELDS from hfew)]
    rfl
  rw [heq]
  refine ⟨{ h with
    cur := rfl, frames := rfl, yields := rfl, tLogical := rfl, frameSeq := rfl, head := rfl
    order := ?_ }, ?_⟩
  · intro i hi hlt
    show (c.order.setIfInBounds t.ticks (c.vmidFor t.slot))[i] = _
    rw [Vector.getElem_setIfInBounds]
    split
    case isTrue heqi =>
      subst heqi
      rw [vmidFor_eq h.vmid hslot, SchedCtx.expectAt, Turns.slot]
      rcases hcases with hpar | hpar
      · rw [if_pos hpar, hpar]
        rfl
      · rw [if_neg (by omega), hpar]
        rfl
    case isFalse hne =>
      have hlt' : i < t.ticks + 1 := hlt
      exact h.order i hi (by omega)
  · rcases hcases with hpar | hpar
    · have hone : (t.ticks + 1) % 2 = 1 := by omega
      simp only [SchedCtx.vttbrFor, SchedCtx.entryPcFor, h.vttbr, h.entryPc, hone]
      rfl
    · have hzero : (t.ticks + 1) % 2 = 0 := by omega
      simp only [SchedCtx.vttbrFor, SchedCtx.entryPcFor, h.vttbr, h.entryPc, hzero]
      rfl

/-- A store is counted in the cell of the slot that runs. -/
theorem store (h : Cells l t c) :
    Cells l { t with stores := Function.update t.stores t.slot (t.stores t.slot + 1) }
      { c with
        deviceCount := c.deviceCount.set (SchedCtx.cellOf (.ofNat 64 t.slot))
          (c.deviceCount[SchedCtx.cellOf (.ofNat 64 t.slot)] + 1) } := by
  have hcell0 : SchedCtx.cellOf (.ofNat 64 0) = 0 := by decide
  have hcell1 : SchedCtx.cellOf (.ofNat 64 1) = 1 := by decide
  have hbump (n : Nat) : (BitVec.ofNat 64 n : Reg) + 1 = .ofNat 64 (n + 1) := by rw [BitVec.ofNat_add]; rfl
  have hslot : t.slot < 2 := Nat.mod_lt _ (by decide)
  have hcases : t.slot = 0 ∨ t.slot = 1 := by omega
  refine { h with count0 := ?_, count1 := ?_ }
  · rcases hcases with hs | hs
    · simp only [hs, hcell0, Function.update_self]
      exact (Vector.getElem_set_self _).trans ((congrArg (· + 1) h.count0).trans (hbump _))
    · simp only [hs, hcell1, Function.update_of_ne (show (0 : Nat) ≠ 1 by decide)]
      exact (Vector.getElem_set_ne _ _ (by decide)).trans h.count0
  · rcases hcases with hs | hs
    · simp only [hs, hcell0, Function.update_of_ne (show (1 : Nat) ≠ 0 by decide)]
      exact (Vector.getElem_set_ne _ _ (by decide)).trans h.count1
    · simp only [hs, hcell1, Function.update_self]
      exact (Vector.getElem_set_self _).trans ((congrArg (· + 1) h.count1).trans (hbump _))

end Cells

/-! ## The verdict -/

/-- What the sixteenth tick reports. -/
def verdictOf (t : Turns) : Report :=
  let replay := m27ReplayHead 16
  if BitVec.ofNat 64 (t.stores 0) = 0 then ⟨FAIL_SCHED_VMID0_STARVED, 0⟩
  else if BitVec.ofNat 64 (t.stores 1) = 0 then ⟨FAIL_SCHED_VMID1_STARVED, 0⟩
  else if replay.tampered = replay.clean then ⟨FAIL_SCHED_TAMPER, Mem.Prov.headWitness replay.tampered⟩
  else ⟨0, Mem.Prov.headWitness replay.clean⟩

theorem verdictOf_clean {t : Turns} (h : (verdictOf t).code = 0) :
    0 < t.stores 0 ∧ 0 < t.stores 1 ∧ (verdictOf t).word = Mem.Prov.headWitness (m27ReplayHead 16).clean := by
  have hpos {n : Nat} (hn : BitVec.ofNat 64 n ≠ 0) : 0 < n := Nat.pos_of_ne_zero fun hzero => hn (hzero ▸ rfl)
  unfold verdictOf at h ⊢
  dsimp only at h ⊢
  split at h
  case isTrue => exact absurd h (by decide)
  case isFalse h0 =>
    split at h
    case isTrue => exact absurd h (by decide)
    case isFalse h1 =>
      split at h
      case isTrue => exact absurd h (by show FAIL_SCHED_TAMPER ≠ 0; decide)
      case isFalse h2 =>
        rw [if_neg h0, if_neg h1, if_neg h2]
        exact ⟨hpos h0, hpos h1, rfl⟩

/-- The cells never give the verdict a reason to doubt the order, the frame or the fold. -/
theorem Cells.done_eq {l : SchedLaunch} {t : Turns} {c : SchedCtx} (h : Cells l t c) (ht : t.ticks = 16) :
    c.done = verdictOf t := by
  have hyields : c.yieldsDone = 16 := by rw [h.yields, ht]; rfl
  have hstuck : (List.range (min c.yieldsDone.toNat MAX_YIELDS)).find?
      (fun i => c.orderAt i ≠ SchedCtx.expectAt i) = none := by
    rw [List.find?_eq_none]
    intro i hi
    have hlt : i < 16 := by
      rw [hyields] at hi
      exact List.mem_range.mp hi
    simp only [SchedCtx.orderAt, dif_pos hlt, h.order i hlt (by omega), ne_eq, not_true_eq_false, decide_false,
      Bool.false_eq_true, not_false_eq_true]
  have htotal : ¬(frameTotal m27FramePlan ≠ satAdd c.slotTicks[0] c.slotTicks[1] ∨
      frameTotal m27FramePlan ≠ M27_SLOT0_TICKS + M27_SLOT1_TICKS) := by
    have hfirst : c.slotTicks[0] = M27_SLOT0_TICKS := by simp only [h.slotTicks]; rfl
    have hsecond : c.slotTicks[1] = M27_SLOT1_TICKS := by simp only [h.slotTicks]; rfl
    rw [hfirst, hsecond]
    decide
  have hclean : m27ReplayHead 16 = m27ReplayHead c.yieldsDone.toNat := by rw [hyields]; rfl
  have hhead : c.head = (m27ReplayHead 16).clean := ht ▸ h.head
  have hlong : ¬c.yieldsDone.toNat < 2 * K_MAX_FRAMES := by rw [hyields]; decide
  simp only [SchedCtx.done, hstuck, htotal, ← hclean, hhead, h.count0, h.count1, hlong, if_false, ne_eq,
    not_true_eq_false, verdictOf]
  split_ifs with h0 h1 <;> simp [*]

/-! ## One event -/

/-- Nothing of the window is left. -/
structure TornDown (h : Hyp) : Prop where
  hcr : h.mon.regs.hcrEl2 = HCR_RW
  vttbr : h.mon.regs.vttbrEl2 = 0
  tmode : h.mon.sched.tmode = TMODE_OFF
  armed : h.mon.sched.armed = false

/-- The window is open: no other one is, the running slot is behind its own root, and the kernel's
frame is there to go back to. -/
structure Window (l : SchedLaunch) (t : Turns) (h : Hyp) : Prop where
  cells : Cells l t h.mon.sched
  eoi : h.mon.sched.eoi = .ofNat 64 t.ticks
  few : t.ticks < 16
  kg : h.mon.kg.armed = false
  vgic : h.mon.vgic.armed = false
  exits : h.mon.exits.armed = false
  trap : h.mon.trap.armed = false
  live : ¬(h.mon.b0.elr = 0 ∧ h.mon.b0.spsr = 0)
  hcr : h.mon.regs.hcrEl2 = HCR_RW ||| HCR_IMO ||| HCR_VM
  root : h.mon.regs.vttbrEl2 = l.root t.slot

/-- What an event leaves: the window goes on, or the kernel is back with a failure, or with the
verdict. -/
def After (l : SchedLaunch) (t : Turns) (r : Hyp × Leave) : Prop :=
  (r.2.control = .guest ∧ Window l t r.1) ∨
    ∃ rep, r.2.control = .host rep ∧ (rep.code ≠ 0 ∨ (t.ticks = 16 ∧ rep = verdictOf t ∧ TornDown r.1))

theorem returnToKernel_eq {m : Monitor} (h : ¬(m.b0.elr = 0 ∧ m.b0.spsr = 0)) (r : Report) :
    m.returnToKernel r = (m, .unwind r) := if_neg h

section Step

variable {l : SchedLaunch} {t : Turns} {h : Hyp}

/-- Back in the kernel with a failure. -/
theorem After.failed {m : Monitor} (hlive : ¬(m.b0.elr = 0 ∧ m.b0.spsr = 0)) {code : Reg} (hcode : code ≠ 0)
    (word : Reg) : After l t (h.lift (m.returnToKernel ⟨code, word⟩)) := by
  rw [returnToKernel_eq hlive]
  exact .inr ⟨⟨code, word⟩, rfl, .inl hcode⟩

/-- What a tick of the window's own timer does: the sixteenth ends the run, the others pass the
turn on, if the deadline could be armed again.  The storm cap is out of reach. -/
theorem timer_eq (hw : Window l t h) (frame : Frame) {iar : BitVec 32} (hiar : iar &&& GIC_INTID_MASK = CNTHP_PPI)
    (istatusClear : Bool) :
    h.mon.timerHandler frame iar istatusClear =
      let c := h.mon.sched.noteSwitch.2
      let m := { h.mon with sched := c }
      let nxt := (t.ticks + 1) % 2
      if t.ticks + 1 = 16 then (m.disarmCnthpWindow.disarmSched, .unwind (verdictOf { t with ticks := t.ticks + 1 }))
      else if istatusClear = false then
        (m.disarmCnthpWindow.disarmSched, .unwind ⟨FAIL_SCHED_TIMER_ISTATUS, iar.setWidth 64⟩)
      else
        ({ m with sched := { c with eoi := c.eoi + 1 }, regs := { m.regs with vttbrEl2 := l.root nxt } },
          .retry { frame with elr := if nxt = 0 then l.entry0 else l.entry1 }) := by
  obtain ⟨hcells, hnext⟩ := hw.cells.noteSwitch hw.few
  have heoi : h.mon.sched.noteSwitch.2.eoi = .ofNat 64 t.ticks := hw.eoi
  have hfew := hw.few
  have hmore : (h.mon.sched.noteSwitch.2.framesDone ≥ .ofNat 64 K_MAX_FRAMES) ↔ t.ticks + 1 = 16 := by
    rw [hcells.frames, ge_iff_le, BitVec.le_def, BitVec.toNat_ofNat, BitVec.toNat_ofNat]
    show 8 % 2 ^ 64 ≤ (t.ticks + 1) / 2 % 2 ^ 64 ↔ _
    rw [Nat.mod_eq_of_lt (a := (t.ticks + 1) / 2) (by omega)]
    omega
  have hstorm : ¬h.mon.sched.noteSwitch.2.eoi + 1 > EOI_HARD_CAP := by
    rw [heoi, gt_iff_lt, BitVec.lt_def, BitVec.toNat_add, BitVec.toNat_ofNat]
    show ¬32 < (t.ticks % 2 ^ 64 + 1) % 2 ^ 64
    omega
  rw [timerHandler, if_neg (not_not.mpr hiar), if_neg (by rw [hw.cells.tmode]; decide), if_pos hw.cells.tmode,
    preemptTick]
  generalize h.mon.sched.noteSwitch = sw at hcells hnext hmore hstorm ⊢
  obtain ⟨⟨nxt, vttbr, entry⟩, c⟩ := sw
  simp only [Prod.mk.injEq] at hnext
  obtain ⟨-, rfl, rfl⟩ := hnext
  dsimp only at hcells hmore hstorm ⊢
  by_cases hlast : t.ticks + 1 = 16
  · rw [if_pos (hmore.mpr hlast), if_pos hlast, hcells.done_eq hlast]
    exact returnToKernel_eq (by exact hw.live) _
  · rw [if_neg (mt hmore.mp hlast), if_neg hlast]
    split
    case isTrue => exact returnToKernel_eq (by exact hw.live) _
    case isFalse => rfl

theorem after_timer (hw : Window l t h) (frame : Frame) (iar : BitVec 32) (istatusClear : Bool) :
    After l { t with ticks := t.ticks + 1 } (h.lift (h.mon.timerHandler frame iar istatusClear)) := by
  have hfew := hw.few
  by_cases hiar : iar &&& GIC_INTID_MASK = CNTHP_PPI
  · rw [timer_eq hw frame hiar]
    dsimp only
    split
    case isTrue hlast => exact .inr ⟨_, rfl, .inr ⟨hlast, rfl, ⟨rfl, rfl, rfl, rfl⟩⟩⟩
    case isFalse hlast =>
      split
      case isTrue => exact .inr ⟨_, rfl, .inl (show FAIL_SCHED_TIMER_ISTATUS ≠ 0 by decide)⟩
      case isFalse =>
        have heoi : h.mon.sched.noteSwitch.2.eoi = .ofNat 64 t.ticks := hw.eoi
        have hcells := (hw.cells.noteSwitch hw.few).1
        refine .inl ⟨rfl, ?_⟩
        exact
          { cells := { hcells with }
            eoi := by
              show h.mon.sched.noteSwitch.2.eoi + 1 = _
              rw [heoi, BitVec.ofNat_add]
              rfl
            few := by
              show t.ticks + 1 < 16
              omega
            kg := hw.kg, vgic := hw.vgic, exits := hw.exits, trap := hw.trap, live := hw.live, hcr := hw.hcr
            root := rfl }
  · rw [timerHandler, if_pos hiar]
    exact .failed (by exact hw.live) (by decide) _

/-- The demand path maps the hole or fails; it never touches the window. -/
theorem after_stage2Abort (hw : Window l t h) (e : Exit) : After l t (h.stage2Abort e) := by
  rw [Hyp.stage2Abort]
  dsimp only
  split
  case isTrue => exact .failed (by exact hw.live) (by decide) _
  case isFalse =>
    split
    case isTrue => exact .failed (by exact hw.live) (by decide) _
    case isFalse =>
      split
      case isTrue => exact .failed (by exact hw.live) (by decide) _
      case isFalse =>
        split
        case h_1 => exact .failed (by exact hw.live) (by decide) _
        case h_2 => exact .inl ⟨rfl, { hw with }⟩

/-- Whose device it is, the running slot says. -/
theorem mmio_eq (hw : Window l t h) (e : Exit) :
    h.mmioEmulateM27 e =
      if e.faultIpa ≠ Turns.deviceOf t.slot then h.stage2Abort e
      else if dabtIsEmulatable e.esr = false then
        h.lift ({ h.mon with
          sched := { h.mon.sched with armed := false }
          regs := h.mon.regs.disarmStage2 }.returnToKernel ⟨Hyp.FAIL_TRAP_MMIO_NISV, e.esr⟩)
      else
        let isWrite := decide (esrWnr e.esr = 1)
        let (value, c) := h.mon.sched.deviceMmioM27 isWrite (.ofNat 64 t.slot)
        let frame := if isWrite then e.frame else e.frame.write (dabtIssSrt e.esr) value
        h.lift ({ h.mon with sched := c }, .retry frame.advance) := by
  have hslot : t.slot < 2 := Nat.mod_lt _ (by decide)
  have hvmid : h.mon.sched.vmidFor h.mon.sched.currentSlot = .ofNat 64 t.slot := by
    rw [hw.cells.currentSlot_eq, vmidFor_eq hw.cells.vmid hslot]
  have hexpect : (if (BitVec.ofNat 64 t.slot : Reg) = M27_VMID0.setWidth 64 then Hyp.M27_DEVICE_IPA_0
      else Hyp.M27_DEVICE_IPA_1) = Turns.deviceOf t.slot := by
    have hcases : t.slot = 0 ∨ t.slot = 1 := by omega
    rcases hcases with hs | hs <;> rw [hs] <;> rfl
  rw [Hyp.mmioEmulateM27, hvmid]
  dsimp only
  rw [hexpect]

/-- A store of the running slot to its own page is counted, and the slot goes on. -/
theorem counts_window (hw : Window l t h) {e : Exit} (hc : Turns.Counts t.slot e) :
    (h.mmioEmulateM27 e).2.control = .guest ∧ Window l (t.step (.sync e)) (h.mmioEmulateM27 e).1 := by
  obtain ⟨-, hipa, hemul, hwrite⟩ := id hc
  have hstep : t.step (.sync e) = { t with stores := Function.update t.stores t.slot (t.stores t.slot + 1) } := if_pos hc
  rw [mmio_eq hw, if_neg (not_not.mpr hipa), if_neg (by rw [hemul]; decide), hstep]
  simp only [hwrite, decide_true, SchedCtx.deviceMmioM27, if_true]
  exact ⟨rfl, { hw with cells := hw.cells.store }⟩

/-- The device of the running slot. -/
theorem after_mmio (hw : Window l t h) {e : Exit} (hcls : classifyExit e.esr = .stageTwoAbort) :
    After l (t.step (.sync e)) (h.mmioEmulateM27 e) := by
  by_cases hc : Turns.Counts t.slot e
  · exact .inl (counts_window hw hc)
  · have hstep : t.step (.sync e) = t := if_neg hc
    rw [mmio_eq hw, hstep]
    split
    case isTrue => exact after_stage2Abort hw e
    case isFalse hipa =>
      split
      case isTrue => exact .failed (by exact hw.live) (by decide) _
      case isFalse hemul =>
        have hload : esrWnr e.esr ≠ 1 := fun hwrite =>
          hc ⟨hcls, not_not.mp hipa, Bool.eq_true_of_not_eq_false hemul, hwrite⟩
        simp only [hload, decide_false, SchedCtx.deviceMmioM27, Bool.false_eq_true, if_false]
        exact .inl ⟨rfl, { hw with }⟩

theorem after_sync (hw : Window l t h) {e : Exit} (hhvc : classifyExit e.esr ≠ .hvc) :
    After l (t.step (.sync e)) (h.syncHandlerWithWindows e) := by
  rw [Hyp.syncHandlerWithWindows, if_neg (by rw [hw.kg]; decide)]
  split
  case h_1 hcls =>
    rw [if_pos hw.cells.armed]
    exact after_mmio hw hcls
  case h_2 hcls =>
    rw [Hyp.wfx, if_neg (by rw [hw.vgic]; decide), if_neg (by rw [hw.exits]; decide)]
    exact .failed (by exact hw.live) (by decide) _
  case h_3 habort hwfx =>
    rw [Monitor.syncHandler]
    split
    case h_1 hcls => exact absurd hcls habort
    case h_2 hcls => exact absurd hcls hwfx
    case h_3 =>
      rw [if_neg (by rw [hw.exits]; decide)]
      exact .failed (by exact hw.live) (by decide) _
    case h_4 =>
      rw [if_neg (by rw [hw.trap]; decide)]
      exact .failed (by exact hw.live) (by decide) _
    case h_5 => exact .failed (by exact hw.live) (by decide) _
    case h_6 hcls => exact absurd hcls hhvc

end Step

/-! ## Whole runs -/

/-- No other window is open. -/
structure Quiet (m : Monitor) : Prop where
  kg : m.kg.armed = false
  vgic : m.vgic.armed = false
  exits : m.exits.armed = false
  trap : m.trap.armed = false

/-- What holds all along. -/
def Slots.Sound (l : SchedLaunch) (w : Slots) : Prop :=
  let t := Turns.of w.taken
  match w.control with
  | .guest => Window l t w.hyp
  | .host rep => rep.code ≠ 0 ∨ (t.ticks = 16 ∧ rep = verdictOf t ∧ TornDown w.hyp)
  | .stopped => False

theorem plan_vmid : (m27FramePlan.vmid.map (·.setWidth 64) : Vector Reg 2) = #v[0, 1] := by
  rw [← Vector.toList_inj, Vector.toList_map]
  decide

theorem plan_slotTicks :
    #v[slotDeadlineDelta m27FramePlan 0, slotDeadlineDelta m27FramePlan 1] = #v[M27_SLOT0_TICKS, M27_SLOT1_TICKS] := by
  decide

/-- The kernel's call opens the window. -/
theorem launch_window {l : SchedLaunch} {h : Hyp} {host : Exit} (hq : Quiet h.mon) (hlive : host.frame.elr ≠ 0) :
    (l.launch h host).control = .guest ∧ Window l (Turns.of []) (l.launch h host).hyp := by
  have hclass : classifyExit (l.exit host).esr = .hvc := by
    show classifyExit ((EC_HVC64 <<< 26) ||| ESR_IL ||| 12) = .hvc
    decide
  have himm : (l.exit host).imm.toNat = 12 := by
    show (((EC_HVC64 <<< 26) ||| ESR_IL ||| 12) &&& HVC_IMM_MASK).toNat = 12
    decide
  have hkg (m : Monitor) (hm : m.kg.armed = false) (h' : Hyp) (hmon : h'.mon = m) :
      h'.syncHandlerWithWindows (l.exit host) = h'.lift (m.hvcHandler (l.exit host)) := by
    simp only [Hyp.syncHandlerWithWindows, hmon, hm, Bool.false_eq_true, if_false, hclass, syncHandler]
  have hroot0 : (l.exit host).frame.gpr[1] = l.vttbr0 := by simp [SchedLaunch.exit, SchedLaunch.regs]
  have hroot1 : (l.exit host).frame.gpr[2] = l.vttbr1 := by simp [SchedLaunch.exit, SchedLaunch.regs]
  have hentry0 : (l.exit host).frame.gpr[3] = l.entry0 := by simp [SchedLaunch.exit, SchedLaunch.regs]
  have hentry1 : (l.exit host).frame.gpr[4] = l.entry1 := by simp [SchedLaunch.exit, SchedLaunch.regs]
  rw [SchedLaunch.launch, hkg { h.mon with b0 := (l.exit host).frame } hq.kg _ rfl, hvcHandler, himm]
  refine ⟨rfl, ?_⟩
  exact
    { cells :=
        { armed := rfl, tmode := rfl, cur := rfl, frames := rfl, yields := rfl
          vmid := plan_vmid
          vttbr := by rw [← hroot0, ← hroot1]; rfl
          entryPc := by rw [← hentry0, ← hentry1]; rfl
          slotTicks := plan_slotTicks
          tLogical := rfl, frameSeq := rfl, head := rfl
          order := fun i _ hlt => absurd hlt (Nat.not_lt_zero i)
          count0 := rfl, count1 := rfl }
      eoi := rfl, few := by decide, kg := hq.kg, vgic := hq.vgic, exits := hq.exits, trap := hq.trap
      live := fun hzero => hlive hzero.1
      hcr := rfl, root := hroot0 }

theorem launch_sound {l : SchedLaunch} {h : Hyp} {host : Exit} (hq : Quiet h.mon) (hlive : host.frame.elr ≠ 0) :
    (l.launch h host).Sound l := by
  obtain ⟨hguest, hw⟩ := launch_window (l := l) hq hlive
  rw [Slots.Sound, hguest]
  exact hw

theorem step_sound {l : SchedLaunch} {w : Slots} {ev : Event} (hev : ¬ev.IsHvc) (hw : w.Sound l) :
    (w.step ev).Sound l := by
  cases hctl : w.control with
  | guest =>
      have hwin : Window l (Turns.of w.taken) w.hyp := by simpa only [Slots.Sound, hctl] using hw
      have hafter : After l ((Turns.of w.taken).step ev) (Slots.handle w.hyp ev) := by
        cases ev with
        | sync e => exact after_sync hwin hev
        | timer frame iar istatusClear => exact after_timer hwin frame iar istatusClear
      simp only [Slots.step, hctl, Slots.Sound, Turns.of_snoc]
      rcases hafter with ⟨hguest, hnext⟩ | ⟨rep, hhost, hrep⟩
      · rw [hguest]
        exact hnext
      · rw [hhost]
        exact hrep
  | host rep => rwa [Slots.step, hctl]
  | stopped => rwa [Slots.step, hctl]

theorem run_sound {l : SchedLaunch} {es : List Event} {w : Slots} (hes : ∀ ev ∈ es, ¬ev.IsHvc) (hw : w.Sound l) :
    (Run.exec Slots.step w es).Sound l := by
  induction es generalizing w with
  | nil => exact hw
  | cons ev es ih =>
      exact ih (fun a ha => hes a (List.mem_cons_of_mem _ ha)) (step_sound (hes ev List.mem_cons_self) hw)

/-- The kernel's call, then the events. -/
def SchedLaunch.run (l : SchedLaunch) (h : Hyp) (host : Exit) (es : List Event) : Slots :=
  Run.exec Slots.step (l.launch h host) es

/-- What was taken is how the run began; while the guests run it is all of it. -/
theorem taken_run (w : Slots) (es : List Event) :
    (Run.exec Slots.step w es).taken <+: w.taken ++ es ∧
      ((Run.exec Slots.step w es).control = .guest → (Run.exec Slots.step w es).taken = w.taken ++ es) := by
  refine Run.exec_taken Slots.taken (·.control = .guest) (fun v ev hgo => ?_) (fun v ev hstop => ?_) w es
  · rw [Slots.step, hgo]
  · cases hctl : v.control with
    | guest => exact absurd hctl hstop
    | host rep => rw [Slots.step, hctl]
    | stopped => rw [Slots.step, hctl]

/-- **No clean verdict without the turns.**  Whatever two guests that make no hypercall do, in
whatever order their exits and the ticks come: the one that runs is behind its own root, and a
report of success is made at the sixteenth tick, after each has stored to its own page while it
was the one that ran, over the head of the replayed schedule and with the window torn down. -/
theorem SchedLaunch.run_backed (l : SchedLaunch) (h : Hyp) (host : Exit) (es : List Event) (hq : Quiet h.mon)
    (hlive : host.frame.elr ≠ 0) (hes : ∀ ev ∈ es, ¬ev.IsHvc) :
    let w := l.run h host es
    let t := Turns.of w.taken
    w.taken <+: es ∧ w.control ≠ .stopped ∧
      (w.control = .guest →
        w.taken = es ∧ t.ticks < 16 ∧ w.hyp.mon.regs.hcrEl2 = HCR_RW ||| HCR_IMO ||| HCR_VM ∧
          w.hyp.mon.regs.vttbrEl2 = l.root (t.ticks % 2)) ∧
      ∀ rep, w.control = .host rep → rep.code = 0 →
        t.ticks = 16 ∧ 0 < t.stores 0 ∧ 0 < t.stores 1 ∧
          rep.word = Mem.Prov.headWitness (m27ReplayHead 16).clean ∧ TornDown w.hyp := by
  have hsound : (l.run h host es).Sound l := run_sound hes (launch_sound hq hlive)
  obtain ⟨hpre, hall⟩ := taken_run (l.launch h host) es
  refine ⟨hpre, ?_, ?_, ?_⟩
  · intro hstop
    simp only [Slots.Sound, hstop] at hsound
  · intro hguest
    simp only [Slots.Sound, hguest] at hsound
    exact ⟨hall hguest, hsound.few, hsound.hcr, hsound.root⟩
  · intro rep hhost hcode
    simp only [Slots.Sound, hhost] at hsound
    obtain hfail | ⟨hticks, hrep, hdown⟩ := hsound
    · exact absurd hcode hfail
    · obtain ⟨hfirst, hsecond, hword⟩ := verdictOf_clean (hrep ▸ hcode)
      exact ⟨hticks, hfirst, hsecond, hrep ▸ hword, hdown⟩

def sampleSched : SchedLaunch := ⟨0x80023558, 0x1000, 0x10000000001000, 0x40080000, 0x40090000⟩
def sampleHyp : Hyp := ⟨sampleMonitor, fun _ => 0, 0⟩

theorem sample_quiet : Quiet sampleMonitor := ⟨rfl, rfl, rfl, rfl⟩

/-- A turn in which slot `i % 2` stores to its page, and the tick that ends it. -/
def sampleTurn (i : Nat) : List Event :=
  [.sync (sampleStore (Turns.deviceOf (i % 2)) 0), .timer (sampleFrame 0 0) 26 true]

/-- Three turns: the guests are still in. -/
theorem run_backed_sample :
    let es := (List.range 3).flatMap sampleTurn
    let w := sampleSched.run sampleHyp (sampleExit 0 0 0 0) es
    let t := Turns.of w.taken
    (w.taken <+: es ∧ w.control ≠ .stopped ∧
      (w.control = .guest →
        w.taken = es ∧ t.ticks < 16 ∧ w.hyp.mon.regs.hcrEl2 = HCR_RW ||| HCR_IMO ||| HCR_VM ∧
          w.hyp.mon.regs.vttbrEl2 = sampleSched.root (t.ticks % 2)) ∧
      ∀ rep, w.control = .host rep → rep.code = 0 →
        t.ticks = 16 ∧ 0 < t.stores 0 ∧ 0 < t.stores 1 ∧
          rep.word = Mem.Prov.headWitness (m27ReplayHead 16).clean ∧ TornDown w.hyp) ∧
      w.control = .guest ∧ t.ticks = 3 ∧ t.stores 0 = 2 ∧ t.stores 1 = 1 := by
  intro es w t
  have h := SchedLaunch.run_backed sampleSched sampleHyp (sampleExit 0 0 0 0) es sample_quiet (by decide)
    (by decide)
  have hguest : w.control = .guest := by decide +kernel
  have ht : t = Turns.of es := congrArg Turns.of (h.2.2.1 hguest).1
  exact ⟨h, hguest, by rw [ht]; decide, by rw [ht]; decide, by rw [ht]; decide⟩

/-! ## The two stubs -/

/-- What the two guests of the boot test do, and how the timer behaves under them: a tick is the
window's own and can be armed again, an exit is a store of the running slot to its own page. -/
def Turns.Stub (t : Turns) : Event → Prop
  | .timer _ iar istatusClear => iar &&& GIC_INTID_MASK = CNTHP_PPI ∧ istatusClear = true
  | .sync e => Turns.Counts t.slot e

instance (t : Turns) : ∀ ev, Decidable (t.Stub ev)
  | .timer _ _ _ => inferInstanceAs (Decidable (_ ∧ _))
  | .sync e => inferInstanceAs (Decidable (Turns.Counts t.slot e))

theorem Turns.ticks_mono (t : Turns) (es : List Event) : t.ticks ≤ (Run.exec Turns.step t es).ticks := by
  refine Run.exec_rel (P := fun _ => True) (R := fun a b : Turns => a.ticks ≤ b.ticks) (fun _ => le_rfl) le_trans
    (fun _ _ _ => trivial) ?_ es trivial
  intro s ev _
  cases ev with
  | timer frame iar istatusClear => exact Nat.le_succ _
  | sync e =>
      rw [Turns.step]
      split
      · exact le_rfl
      · exact le_rfl

/-- One event of the stubs that is not the last tick. -/
theorem stub_window {l : SchedLaunch} {t : Turns} {h : Hyp} (hw : Window l t h) {ev : Event} (hev : t.Stub ev)
    (hmore : (t.step ev).ticks < 16) :
    (Slots.handle h ev).2.control = .guest ∧ Window l (t.step ev) (Slots.handle h ev).1 := by
  cases ev with
  | timer frame iar istatusClear =>
      have hlt : t.ticks + 1 < 16 := hmore
      obtain ⟨hiar, hclear⟩ := hev
      have hguest : (h.lift (h.mon.timerHandler frame iar istatusClear)).2.control = .guest := by
        rw [timer_eq hw frame hiar, hclear]
        dsimp only
        rw [if_neg (by omega), if_neg (by decide)]
        rfl
      refine ⟨hguest, ?_⟩
      obtain ⟨-, hnext⟩ | ⟨rep, hhost, -⟩ := after_timer hw frame iar istatusClear
      · exact hnext
      · rw [hguest] at hhost
        exact nomatch hhost
  | sync e =>
      have hcls : classifyExit e.esr = .stageTwoAbort := hev.1
      have hmmio : h.syncHandlerWithWindows e = h.mmioEmulateM27 e := by
        rw [Hyp.syncHandlerWithWindows, if_neg (by rw [hw.kg]; decide)]
        simp only [hcls, if_pos hw.cells.armed]
      show (h.syncHandlerWithWindows e).2.control = .guest ∧ Window l (t.step (.sync e)) (h.syncHandlerWithWindows e).1
      rw [hmmio]
      exact counts_window hw hev

theorem stubs_window {l : SchedLaunch} {es : List Event} {w : Slots} (hctl : w.control = .guest)
    (hw : Window l (Turns.of w.taken) w.hyp) (hes : Run.Guarded Turns.step Turns.Stub (Turns.of w.taken) es)
    (hmore : (Run.exec Turns.step (Turns.of w.taken) es).ticks < 16) :
    (Run.exec Slots.step w es).control = .guest ∧
      Window l (Run.exec Turns.step (Turns.of w.taken) es) (Run.exec Slots.step w es).hyp := by
  induction es generalizing w with
  | nil => exact ⟨hctl, hw⟩
  | cons ev es ih =>
      have hfew : ((Turns.of w.taken).step ev).ticks < 16 := lt_of_le_of_lt (Turns.ticks_mono _ es) hmore
      obtain ⟨hguest, hnext⟩ := stub_window hw hes.1 hfew
      have hstep : w.step ev =
          { hyp := (Slots.handle w.hyp ev).1, taken := w.taken ++ [ev], control := (Slots.handle w.hyp ev).2.control } := by
        rw [Slots.step, hctl]
      have hof : Turns.of (w.step ev).taken = (Turns.of w.taken).step ev := by rw [hstep, Turns.of_snoc]
      rw [Run.exec_cons, Run.exec_cons, ← hof]
      refine ih (by rw [hstep]; exact hguest) ?_ (hof ▸ hes.2) (by rw [hof]; exact hmore)
      rw [hof, hstep]
      exact hnext

/-- **Two guests that take turns get a verdict on their own stores.**  However many stores each of
the two stubs makes in each of its turns, the window is never lost before the sixteenth tick: the
running stub is behind its own root and its count is its stores.  The sixteenth tick ends the run,
whatever would come after it, and the report looks at nothing but the two counts and the two
replayed heads: it never finds the schedule too short, out of order or misfolded. -/
theorem SchedLaunch.run_stubs (l : SchedLaunch) (h : Hyp) (host : Exit) (es : List Event) (hq : Quiet h.mon)
    (hlive : host.frame.elr ≠ 0) (hes : Run.Guarded Turns.step Turns.Stub (Turns.of []) es) :
    let t := Turns.of es
    (t.ticks < 16 →
      let w := l.run h host es
      w.control = .guest ∧ w.hyp.mon.regs.vttbrEl2 = l.root (t.ticks % 2) ∧
        w.hyp.mon.sched.deviceCount = #v[.ofNat 64 (t.stores 0), .ofNat 64 (t.stores 1)]) ∧
      (t.ticks = 15 → ∀ frame iar istatusClear rest, iar &&& GIC_INTID_MASK = CNTHP_PPI →
        let w := l.run h host (es ++ .timer frame iar istatusClear :: rest)
        w.control = .host (verdictOf t) ∧ TornDown w.hyp) := by
  obtain ⟨hguest, hw⟩ := launch_window (l := l) hq hlive
  have hrun (hmore : (Turns.of es).ticks < 16) :
      (l.run h host es).control = .guest ∧ Window l (Turns.of es) (l.run h host es).hyp :=
    stubs_window hguest hw hes hmore
  refine ⟨?_, ?_⟩
  · intro hmore
    obtain ⟨hctl, hopen⟩ := hrun hmore
    exact ⟨hctl, hopen.root, hopen.cells.deviceCount_eq⟩
  · intro hlast frame iar istatusClear rest hiar
    obtain ⟨hctl, hopen⟩ := hrun (by omega)
    have hsplit : l.run h host (es ++ .timer frame iar istatusClear :: rest) =
        Run.exec Slots.step ((l.run h host es).step (.timer frame iar istatusClear)) rest := Run.exec_append _ _ _ _
    have htick : (l.run h host es).hyp.mon.timerHandler frame iar istatusClear =
        (({ (l.run h host es).hyp.mon with
            sched := (l.run h host es).hyp.mon.sched.noteSwitch.2 } : Monitor).disarmCnthpWindow.disarmSched,
          .unwind (verdictOf (Turns.of es))) := by
      rw [timer_eq hopen frame hiar]
      dsimp only
      rw [if_pos (by omega)]
      rfl
    have hend : ((l.run h host es).step (.timer frame iar istatusClear)).control = .host (verdictOf (Turns.of es)) ∧
        TornDown ((l.run h host es).step (.timer frame iar istatusClear)).hyp := by
      rw [Slots.step, hctl]
      dsimp only
      rw [Slots.handle, htick]
      exact ⟨rfl, ⟨rfl, rfl, rfl, rfl⟩⟩
    rw [hsplit, Slots.exec_host hend.1]
    exact hend

/-- Fifteen turns and the last tick. -/
theorem run_stubs_sample :
    let es := (List.range 15).flatMap sampleTurn
    let w := sampleSched.run sampleHyp (sampleExit 0 0 0 0) es
    let last := sampleSched.run sampleHyp (sampleExit 0 0 0 0) (es ++ [.timer (sampleFrame 0 0) 26 true])
    (w.control = .guest ∧ w.hyp.mon.regs.vttbrEl2 = sampleSched.root 1 ∧ w.hyp.mon.sched.deviceCount = #v[8, 7]) ∧
      last.control = .host (verdictOf (Turns.of es)) ∧ TornDown last.hyp := by
  intro es w last
  have h := SchedLaunch.run_stubs sampleSched sampleHyp (sampleExit 0 0 0 0) es sample_quiet (by decide)
    (by decide)
  have hticks : (Turns.of es).ticks = 15 := by decide +kernel
  have hfirst : (Turns.of es).stores 0 = 8 := by decide +kernel
  have hsecond : (Turns.of es).stores 1 = 7 := by decide +kernel
  have hopen := h.1 (by rw [hticks]; decide)
  rw [hticks, hfirst, hsecond] at hopen
  exact ⟨hopen, h.2 hticks _ _ _ [] (by decide)⟩

end Yuva.El2
