/-
# `Yuva.Kernel.Blocking` — tasks that wait on an empty inbox

`tb-hal/src/lib.rs`: the run queue, `TASK_STATE`, and the blocking receive.  On one core one
task runs; a timer tick hands the processor to the next RUNNABLE task of the queue.  A task
in `agent_chan_recv_blocking` masks interrupts and loops:

    recv       anything but `WouldBlock` is the answer
    set_waiter the running task, on its inbox ring
    block      the running task is BLOCKED, a RUNNABLE one of the queue runs

and is back at the top of the loop when it runs again.  A send that is accepted takes the
waiter of its outbox ring and makes it RUNNABLE; nothing else does, a close among it.

A ring has one waiter slot.  `parkedAt` says on which ring a BLOCKED task waits, `waiterOf`
who is registered on a ring, and the invariant is that the two are inverse to each other and
that the rings waited on are empty and open.
-/
import Yuva.Lib.Pairing
import Yuva.Ipc.Await
import Yuva.Caps.World
import Yuva.Kernel.Agents

namespace Yuva.Kernel

open Yuva.Caps CapTable Yuva.Ipc Yuva.Run Yuva.Pairing

/-! ## The scheduler -/

inductive RunState where
  | runnable | blocked
deriving DecidableEq, Repr

/-- `RUNQUEUE[..RUNQUEUE_LEN]`, `CURRENT_TASK` and `TASK_STATE`. -/
structure Sched where
  runqueue : List Nat
  current : Nat
  state : Nat → RunState

namespace Sched

/-- The running task's place in the queue; the head, if it has none. -/
def position (q : Sched) : Nat :=
  if q.current ∈ q.runqueue then q.runqueue.idxOf q.current else 0

/-- The queue once round, from behind the running task. -/
def successors (q : Sched) : List Nat :=
  (List.range q.runqueue.length).filterMap fun k => q.runqueue[(q.position + (k + 1)) % q.runqueue.length]?

def isRunnable (q : Sched) (cand : Nat) : Bool := decide (cand < MAX_TASKS) && q.state cand == .runnable

def wakeTask (q : Sched) (slot : BitVec 32) : Sched :=
  if slot.toNat < MAX_TASKS then { q with state := Function.update q.state slot.toNat .runnable } else q

/-- Also whether some other task could run: if none can, the machine stops. -/
def blockCurrentAndYield (q : Sched) : Bool × Sched :=
  let q := if q.current < MAX_TASKS then { q with state := Function.update q.state q.current .blocked } else q
  match q.successors.find? fun cand => cand != q.current && q.isRunnable cand with
  | some cand => (true, { q with current := cand })
  | none => (false, q)

/-- The timer tick. -/
def schedule (q : Sched) : Sched :=
  if q.runqueue.length < 2 then q
  else
    match q.successors.find? q.isRunnable with
    | some next => { q with current := next }
    | none => q

end Sched

/-! ## The machine -/

variable {κ β : Type*} [DecidableEq κ]

/-- What a task in the wait loop holds on its stack. -/
structure Wait (κ : Type*) where
  agent : Nat
  ep : Handle
  chan : κ
  side : Side

/-- The ring its receives pop. -/
def Wait.ring (w : Wait κ) : κ × Side := (w.chan, w.side.peer)

/-- The agents' tables, the channels and the scheduler; `waits` is the wait loop each task is in. -/
structure Host (κ β : Type*) where
  world : Ipc.World Nat κ β
  isAgent : Nat → Bool
  sched : Sched
  waits : Nat → Option (Wait κ)
  fatal : Bool

/-- What can happen next: a tick, or the running task does something. -/
inductive Event (κ β : Type*) where
  | tick
  | call (t : Nat) (k : Ipc.Call)
  | recvBlocking (t : Nat) (ep : Handle)
  /-- The next turn of the wait loop. -/
  | again
  | handles (op : Caps.Op Nat (Object κ β))

/-- The task registered on a ring. -/
def waiterIn (chans : κ → Channel (Object κ β)) (p : κ × Side) : Option Nat :=
  ((chans p.1).takeWaiter p.2).1.map BitVec.toNat

/-- The ring is empty and its sender's side is open. -/
def Silent (chans : κ → Channel (Object κ β)) (p : κ × Side) : Prop :=
  ((chans p.1).dir p.2).q = [] ∧ (chans p.1).isOpen p.2 = true

namespace Host

/-- The running task is at no wait loop, and not stopped. -/
def free (s : Host κ β) : Bool := !s.fatal && (s.waits s.sched.current).isNone

def setWaits (s : Host κ β) (w : Option (Wait κ)) : Host κ β :=
  { s with waits := Function.update s.waits s.sched.current w }

/-- `set_waiter` of the running task, then `block_current_and_yield`. -/
def parkOn (s : Host κ β) (w : Wait κ) : Host κ β :=
  let core := (s.world.chans w.chan).setWaiter w.side.peer (BitVec.ofNat 32 s.sched.current)
  { s.setWaits (some w) with
    world := { s.world with chans := Function.update s.world.chans w.chan core }
    sched := s.sched.blockCurrentAndYield.2
    fatal := !s.sched.blockCurrentAndYield.1 }

/-- One turn of the wait loop of `agent_chan_recv_blocking`. -/
def turn (s : Host κ β) (w : Wait κ) : Host κ β :=
  if !s.isAgent w.agent then s.setWaits none
  else
    let r := (s.world.view w.agent).chanRecv w.ep
    let s := { s with world := s.world.commit w.agent r.2 }
    if r.1.status ≠ .wouldBlock then s.setWaits none else s.parkOn w

/-- The slot is in range and holds an agent. -/
def agentAt (s : Host κ β) (t : Nat) : Bool := decide (t < MAX_TASKS) && s.isAgent t

def agentChanRecvBlocking (s : Host κ β) (t : Nat) (ep : Handle) : Host κ β :=
  if !s.agentAt t then s
  else
    match (s.world.view t).chanOf ep with
    | none => s
    | some (chan, side) => s.turn ⟨t, ep, chan, side⟩

/-- What a call left of agent `t`'s view, and the task it wakes. -/
def after (s : Host κ β) (t : Nat) (v : View κ β) (woken : Option (BitVec 32)) : Host κ β :=
  { s with
    world := s.world.commit t v
    sched := match woken with
      | none => s.sched
      | some slot => s.sched.wakeTask slot }

/-- A call through agent `t`'s table, and the wake an accepted send makes. -/
def agentCall (s : Host κ β) (t : Nat) (k : Ipc.Call) : Host κ β :=
  if !s.agentAt t then s else s.after t ((s.world.view t).call k).2 ((s.world.view t).woken k)

/-- An event that cannot happen changes nothing: interrupts are masked in the wait loop, so a
task there makes its turn before anything else. -/
def step (s : Host κ β) : Event κ β → Host κ β
  | .tick => if s.free then { s with sched := s.sched.schedule } else s
  | .call t k => if s.free then s.agentCall t k else s
  | .recvBlocking t ep => if s.free then s.agentChanRecvBlocking t ep else s
  | .again =>
      if s.fatal then s
      else
        match s.waits s.sched.current with
        | none => s
        | some w => s.turn w
  | .handles op =>
      if s.free then { s with world := { s.world with tables := Caps.World.step s.world.tables op } } else s

/-! ## Who waits where -/

/-- The ring a BLOCKED task waits on. -/
def parkedAt (s : Host κ β) (i : Nat) : Option (κ × Side) :=
  if s.sched.state i = .blocked then (s.waits i).map Wait.ring else none

/-- The task registered on a ring. -/
def waiterOf (s : Host κ β) (p : κ × Side) : Option Nat := waiterIn s.world.chans p

/-- No task is BLOCKED on an inbox that is non-empty or whose peer has closed, and every
BLOCKED task is registered on some inbox. -/
def NoneStranded (s : Host κ β) : Prop :=
  ∀ i, s.sched.state i = .blocked →
    ∃ w, s.waits i = some w ∧
      ((s.world.chans w.chan).inbox w.side).q = [] ∧ (s.world.chans w.chan).peerOpen w.side = true ∧
      ∃ p, s.waiterOf p = some i

/-- The ring an event closes for its receiver, or would park a receiver on. -/
def contends (s : Host κ β) : Event κ β → Option (κ × Side)
  | .call t (.close ep) =>
      if s.free && s.agentAt t then ((s.world.view t).endpoint ep Rights.NONE).toOption else none
  | .recvBlocking t ep => if s.free && s.agentAt t then (s.world.view t).waitsOn ep else none
  | .again =>
      if s.fatal then none
      else (s.waits s.sched.current).bind fun w =>
        if s.isAgent w.agent then (s.world.view w.agent).waitsOn w.ep else none
  | _ => none

/-- Nobody is registered on the ring the event closes or would park on. -/
def Clear (s : Host κ β) (e : Event κ β) : Prop := ∀ p, s.contends e = some p → s.waiterOf p = none

end Host

/-! ## What the scheduler does -/

namespace Sched

theorem wakeTask_current (q : Sched) (slot : BitVec 32) : (q.wakeTask slot).current = q.current := by
  rw [wakeTask]
  split <;> rfl

theorem wakeTask_state (q : Sched) {slot : BitVec 32} (h : slot.toNat < MAX_TASKS) :
    (q.wakeTask slot).state = Function.update q.state slot.toNat .runnable := by
  rw [wakeTask, if_pos h]

theorem isRunnable_iff {q : Sched} {i : Nat} : q.isRunnable i = true ↔ i < MAX_TASKS ∧ q.state i = .runnable := by
  rw [isRunnable, Bool.and_eq_true, decide_eq_true_eq, beq_iff_eq]

theorem schedule_state (q : Sched) : q.schedule.state = q.state := by
  rw [schedule]
  split
  · rfl
  · split <;> rfl

/-- A tick leaves the running task, or picks a RUNNABLE one. -/
theorem schedule_current (q : Sched) : q.schedule.current = q.current ∨ q.isRunnable q.schedule.current = true := by
  rw [schedule]
  split
  · exact .inl rfl
  · split
    · next next hfind => exact .inr (List.find?_some hfind)
    · exact .inl rfl

/-- The running task is BLOCKED; unless the machine stops, the one that runs is RUNNABLE. -/
theorem blockCurrentAndYield_spec {q : Sched} (hcur : q.current < MAX_TASKS) :
    q.blockCurrentAndYield.2.state = Function.update q.state q.current .blocked ∧
      q.blockCurrentAndYield.2.current < MAX_TASKS ∧
      (q.blockCurrentAndYield.1 = true →
        q.blockCurrentAndYield.2.state q.blockCurrentAndYield.2.current = .runnable) := by
  rw [blockCurrentAndYield, if_pos hcur]
  dsimp only
  split
  · next cand hfind =>
      have hpick := List.find?_some hfind
      rw [Bool.and_eq_true] at hpick
      obtain ⟨hlt, hrun⟩ := isRunnable_iff.mp hpick.2
      exact ⟨rfl, hlt, fun _ => hrun⟩
  · refine ⟨rfl, hcur, ?_⟩
    intro h
    cases h

end Sched

/-! ## What the channels do to the waiters and the rings -/

section Rings

variable {chans : κ → Channel (Object κ β)} {c : κ} {s : Side}

/-- What a waiter slot holding `task` says. -/
def registers (task : BitVec 32) : Option Nat := if task = NO_WAITER then none else some task.toNat

omit [DecidableEq κ] in
theorem waiterIn_eq (chans : κ → Channel (Object κ β)) (p : κ × Side) :
    waiterIn chans p = registers ((chans p.1).waiter p.2) := by
  rw [waiterIn, Channel.takeWaiter, registers]
  dsimp only
  split <;> rfl

/-- A core whose waiters are as they were leaves everyone registered. -/
theorem waiterIn_update {core : Channel (Object κ β)} (h : core.waiter = (chans c).waiter) :
    waiterIn (Function.update chans c core) = waiterIn chans := by
  funext p
  rw [waiterIn_eq, waiterIn_eq, Function.update_apply]
  split
  · next hp => rw [h, hp]
  · rfl

theorem waiterIn_setWaiter {core : Channel (Object κ β)} (hw : core.waiter = (chans c).waiter) (task : BitVec 32) :
    waiterIn (Function.update chans c (core.setWaiter s task)) =
      Function.update (waiterIn chans) (c, s) (registers task) := by
  funext p
  obtain ⟨c', s'⟩ := p
  rw [waiterIn_eq, Function.update_apply, Function.update_apply]
  by_cases hc : c' = c
  · subst hc
    rw [if_pos rfl, Channel.setWaiter]
    dsimp only
    rw [Function.update_apply, hw]
    by_cases hs : s' = s
    · rw [if_pos hs, if_pos (by rw [hs])]
    · rw [if_neg hs, if_neg (fun he => hs (Prod.mk.inj he).2), waiterIn_eq]
  · rw [if_neg hc, if_neg (fun he => hc (Prod.mk.inj he).1), waiterIn_eq]

theorem waiterIn_enqueue (v : View κ β) (m : Message (Object κ β)) :
    waiterIn (v.enqueue c s m).chans = Function.update (waiterIn v.chans) (c, s) none := by
  have hw : ((v.chans c).setQueue s (((v.chans c).outbox s).q ++ [m])).waiter = (v.chans c).waiter := rfl
  exact waiterIn_setWaiter hw NO_WAITER

/-- Silent is about two fields of one core. -/
theorem silent_update {core : Channel (Object κ β)} {p : κ × Side} (h : Silent chans p)
    (hq : p.1 = c → core.dir p.2 = (chans c).dir p.2) (hopen : p.1 = c → core.isOpen p.2 = (chans c).isOpen p.2) :
    Silent (Function.update chans c core) p := by
  by_cases hp : p.1 = c
  · refine ⟨?_, ?_⟩
    · rw [hp, Function.update_self, hq hp, ← hp]
      exact h.1
    · rw [hp, Function.update_self, hopen hp, ← hp]
      exact h.2
  · refine ⟨?_, ?_⟩
    · rw [Function.update_of_ne hp]
      exact h.1
    · rw [Function.update_of_ne hp]
      exact h.2

/-- A change of one ring leaves the other rings silent. -/
theorem silent_setQueue {q : List (Message (Object κ β))} {p : κ × Side} (h : Silent chans p) (hne : p ≠ (c, s)) :
    Silent (Function.update chans c ((chans c).setQueue s q)) p := by
  refine silent_update h ?_ (fun _ => rfl)
  intro hp
  exact Channel.setQueue_dir_ne _ q fun hs => hne (Prod.ext hp hs)

theorem silent_enqueue {v : View κ β} {m : Message (Object κ β)} {p : κ × Side} (h : Silent v.chans p)
    (hne : p ≠ (c, s)) : Silent (v.enqueue c s m).chans p := by
  rw [View.enqueue]
  refine silent_update h ?_ (fun _ => rfl)
  intro hp
  exact Channel.setQueue_dir_ne _ _ fun hs => hne (Prod.ext hp hs)

theorem silent_closeSide {p : κ × Side} (h : Silent chans p) (hne : p ≠ (c, s)) :
    Silent (Function.update chans c ((chans c).closeSide s)) p := by
  refine silent_update h (fun _ => rfl) ?_
  intro hp
  exact Function.update_of_ne (fun hs => hne (Prod.ext hp hs)) _ _

end Rings

/-! ## The invariant -/

namespace Host

structure Inv (s : Host κ β) : Prop where
  sound : ∀ t, Sound (s.world.tables t)
  current : s.sched.current < MAX_TASKS
  running : s.fatal = false → s.sched.state s.sched.current = .runnable
  denotes : ∀ i w, s.waits i = some w → View.Denotes (s.world.tables w.agent) w.ep (w.chan, w.side)
  looping : ∀ i, s.sched.state i = .blocked → i < MAX_TASKS ∧ (s.waits i).isSome
  inverse : Inverse s.parkedAt s.waiterOf
  silent : ∀ i p, s.parkedAt i = some p → Silent s.world.chans p

variable {s : Host κ β}

omit [DecidableEq κ] in
theorem parkedAt_of_runnable {i : Nat} (h : s.sched.state i = .runnable) : s.parkedAt i = none := by
  rw [parkedAt, if_neg]
  intro he
  rw [h] at he
  cases he

omit [DecidableEq κ] in
theorem Inv.parkedAt_of_blocked (h : Inv s) {i : Nat} (hi : s.sched.state i = .blocked) :
    ∃ w, s.waits i = some w ∧ s.parkedAt i = some w.ring := by
  obtain ⟨w, hw⟩ := Option.isSome_iff_exists.mp (h.looping i hi).2
  exact ⟨w, hw, by rw [parkedAt, if_pos hi, hw]; rfl⟩

omit [DecidableEq κ] in
theorem Inv.lt_of_parkedAt (h : Inv s) {i : Nat} {p : κ × Side} (hp : s.parkedAt i = some p) : i < MAX_TASKS := by
  rw [parkedAt] at hp
  split at hp
  · next hi => exact (h.looping i hi).1
  · cases hp

omit [DecidableEq κ] in
/-- The invariant says that nobody is stranded. -/
theorem Inv.noneStranded (h : Inv s) : s.NoneStranded := by
  intro i hi
  obtain ⟨w, hw, hp⟩ := h.parkedAt_of_blocked hi
  obtain ⟨hempty, hopen⟩ := h.silent i _ hp
  exact ⟨w, hw, hempty, hopen, w.ring, (h.inverse i w.ring).mp hp⟩

omit [DecidableEq κ] in
/-- Another task runs. -/
theorem Inv.switch (h : Inv s) {q : Sched} (hstate : q.state = s.sched.state) (hlt : q.current < MAX_TASKS)
    (hrun : s.fatal = false → q.state q.current = .runnable) : Inv { s with sched := q } := by
  have hparked : ({ s with sched := q } : Host κ β).parkedAt = s.parkedAt := by
    funext i
    rw [parkedAt, parkedAt, hstate]
  refine ⟨h.sound, hlt, hrun, h.denotes, ?_, ?_, ?_⟩
  · intro i hi
    rw [hstate] at hi
    exact h.looping i hi
  · rw [hparked]
    exact h.inverse
  · rw [hparked]
    exact h.silent

omit [DecidableEq κ] in
/-- The tables change. -/
theorem Inv.retable (h : Inv s) {tables : Nat → CapTable (Object κ β)}
    (hc : ∀ t, Change (s.world.tables t) (tables t)) :
    Inv { s with world := { s.world with tables := tables } } :=
  ⟨fun t => (hc t).sound (h.sound t), h.current, h.running,
    fun i w hw => (h.denotes i w hw).change (h.sound _) (hc _), h.looping, h.inverse, h.silent⟩

omit [DecidableEq κ] in
/-- The channels change, and nobody is registered or woken. -/
theorem Inv.rechannel (h : Inv s) {chans : κ → Channel (Object κ β)}
    (hw : waiterIn chans = waiterIn s.world.chans)
    (hq : ∀ i p, s.parkedAt i = some p → Silent s.world.chans p → Silent chans p) :
    Inv { s with world := { s.world with chans := chans } } := by
  have hwaiters : ({ s with world := { s.world with chans := chans } } : Host κ β).waiterOf = s.waiterOf := hw
  refine ⟨h.sound, h.current, h.running, h.denotes, h.looping, ?_, ?_⟩
  · rw [hwaiters]
    exact h.inverse
  · intro i p hp
    exact hq i p hp (h.silent i p hp)

omit [DecidableEq κ] in
/-- The running task leaves the wait loop. -/
theorem Inv.leave (h : Inv s) (hlive : s.fatal = false) : Inv (s.setWaits none) := by
  have hrun := h.running hlive
  have hparked : (s.setWaits none).parkedAt = s.parkedAt := by
    funext i
    by_cases hi : i = s.sched.current
    · rw [hi, parkedAt_of_runnable hrun]
      exact parkedAt_of_runnable hrun
    · show (if s.sched.state i = .blocked then (Function.update s.waits s.sched.current none i).map Wait.ring
        else none) = _
      rw [Function.update_of_ne hi, parkedAt]
  refine ⟨h.sound, h.current, h.running, ?_, ?_, ?_, ?_⟩
  · intro i w hw
    have hw' : Function.update s.waits s.sched.current none i = some w := hw
    rw [Function.update_apply] at hw'
    split at hw'
    · cases hw'
    · exact h.denotes i w hw'
  · intro i hi
    have hne : i ≠ s.sched.current := by
      rintro rfl
      rw [show (s.setWaits none).sched.state = s.sched.state from rfl, hrun] at hi
      cases hi
    refine ⟨(h.looping i hi).1, ?_⟩
    show (Function.update s.waits s.sched.current none i).isSome = true
    rw [Function.update_of_ne hne]
    exact (h.looping i hi).2
  · rw [hparked]
    exact h.inverse
  · rw [hparked]
    exact h.silent

/-- The task that waits on a ring is woken and no longer registered there; the other rings keep
their waiters and stay silent. -/
theorem Inv.unpark (h : Inv s) {chans : κ → Channel (Object κ β)} {p₀ : κ × Side} {slot : BitVec 32}
    (hreg : s.waiterOf p₀ = some slot.toNat) (hwaiters : waiterIn chans = Function.update s.waiterOf p₀ none)
    (hsilent : ∀ p, p ≠ p₀ → Silent s.world.chans p → Silent chans p) :
    Inv { s with world := { s.world with chans := chans }, sched := s.sched.wakeTask slot } := by
  have hat : s.parkedAt slot.toNat = some p₀ := (h.inverse _ _).mpr hreg
  have hstate := Sched.wakeTask_state s.sched (h.lt_of_parkedAt hat)
  have hparked : ({ s with
      world := { s.world with chans := chans }
      sched := s.sched.wakeTask slot } : Host κ β).parkedAt = Function.update s.parkedAt slot.toNat none := by
    funext i
    rw [parkedAt]
    dsimp only
    rw [hstate, Function.update_apply, Function.update_apply]
    by_cases hi : i = slot.toNat
    · rw [if_pos hi, if_pos hi]
      rfl
    · rw [if_neg hi, if_neg hi, parkedAt]
  refine ⟨h.sound, ?_, ?_, h.denotes, ?_, ?_, ?_⟩
  · rw [Sched.wakeTask_current]
    exact h.current
  · intro hlive
    dsimp only
    rw [Sched.wakeTask_current, hstate, Function.update_apply]
    split
    · rfl
    · exact h.running hlive
  · intro i hi
    dsimp only at hi
    rw [hstate, Function.update_apply] at hi
    split at hi
    · cases hi
    · exact h.looping i hi
  · rw [hparked]
    show Inverse _ (waiterIn chans)
    rw [hwaiters]
    exact h.inverse.part hreg
  · intro i p hp
    rw [hparked, Function.update_apply] at hp
    split at hp
    · cases hp
    · next hi =>
        refine hsilent p ?_ (h.silent i p hp)
        rintro rfl
        rw [(h.inverse _ _).mp hp] at hreg
        exact hi (Option.some.inj hreg)

/-- A send takes the waiter of its ring and makes it RUNNABLE. -/
theorem Inv.wake (h : Inv s) {c : κ} {sd : Side} (v : View κ β) (hv : v.chans = s.world.chans)
    (m : Message (Object κ β)) :
    Inv { s with
      world := { s.world with chans := (v.enqueue c sd m).chans }
      sched := match ((s.world.chans c).takeWaiter sd).1 with
        | none => s.sched
        | some slot => s.sched.wakeTask slot } := by
  have hwaiters : waiterIn (v.enqueue c sd m).chans = Function.update s.waiterOf (c, sd) none := by
    rw [waiterIn_enqueue, hv]
    rfl
  have hsilent : ∀ p, p ≠ (c, sd) → Silent s.world.chans p → Silent (v.enqueue c sd m).chans p := by
    intro p hne hp
    rw [← hv] at hp
    exact silent_enqueue hp hne
  cases htake : ((s.world.chans c).takeWaiter sd).1 with
  | none =>
      -- nobody waits on the ring
      have hnone : s.waiterOf (c, sd) = none := by rw [waiterOf, waiterIn, htake]; rfl
      refine h.rechannel ?_ ?_
      · rw [hwaiters]
        exact Function.update_eq_self_iff.mpr hnone.symm
      · intro i p hp
        refine hsilent p ?_
        rintro rfl
        exact h.inverse.ne_of_free hnone i hp
  | some slot =>
      have hreg : s.waiterOf (c, sd) = some slot.toNat := by rw [waiterOf, waiterIn, htake]; rfl
      exact h.unpark hreg hwaiters hsilent

/-- Parking registers the running task on the ring, whoever was there. -/
theorem Inv.parkOn_waiterOf (h : Inv s) (w : Wait κ) :
    (s.parkOn w).waiterOf = Function.update s.waiterOf w.ring (some s.sched.current) := by
  have hcur := h.current
  rw [MAX_TASKS] at hcur
  have hto : (BitVec.ofNat 32 s.sched.current).toNat = s.sched.current := by
    rw [BitVec.toNat_ofNat, Nat.mod_eq_of_lt (by omega)]
  have hreg : registers (BitVec.ofNat 32 s.sched.current) = some s.sched.current := by
    rw [registers, if_neg, hto]
    intro he
    have hval := congrArg BitVec.toNat he
    rw [hto, show NO_WAITER.toNat = 2 ^ 32 - 1 from rfl] at hval
    omega
  rw [← hreg]
  exact waiterIn_setWaiter rfl _

/-- The running task parks on a ring that is silent and nobody else's. -/
theorem Inv.park (h : Inv s) (hlive : s.fatal = false) {w : Wait κ}
    (hden : View.Denotes (s.world.tables w.agent) w.ep (w.chan, w.side)) (hring : Silent s.world.chans w.ring)
    (hnone : s.waiterOf w.ring = none) : Inv (s.parkOn w) := by
  obtain ⟨hstate, hlt, hrun⟩ := Sched.blockCurrentAndYield_spec h.current
  have hparked : (s.parkOn w).parkedAt = Function.update s.parkedAt s.sched.current (some w.ring) := by
    funext i
    show (if s.sched.blockCurrentAndYield.2.state i = .blocked then
      (Function.update s.waits s.sched.current (some w) i).map Wait.ring else none) = _
    rw [hstate, Function.update_apply, Function.update_apply, Function.update_apply]
    by_cases hi : i = s.sched.current
    · rw [if_pos hi, if_pos hi, if_pos hi]
      rfl
    · rw [if_neg hi, if_neg hi, if_neg hi, parkedAt]
  have hkeep : ∀ p, Silent s.world.chans p → Silent (s.parkOn w).world.chans p := by
    intro p hp
    exact silent_update hp (fun _ => rfl) (fun _ => rfl)
  refine ⟨h.sound, hlt, ?_, ?_, ?_, ?_, ?_⟩
  · intro hgo
    have hgo' : (!s.sched.blockCurrentAndYield.1) = false := hgo
    exact hrun (by simpa using hgo')
  · intro i w' hw'
    have hw'' : Function.update s.waits s.sched.current (some w) i = some w' := hw'
    rw [Function.update_apply] at hw''
    split at hw''
    · cases hw''
      exact hden
    · exact h.denotes i w' hw''
  · intro i hi
    have hi' : s.sched.blockCurrentAndYield.2.state i = .blocked := hi
    rw [hstate, Function.update_apply] at hi'
    show _ ∧ (Function.update s.waits s.sched.current (some w) i).isSome = true
    rw [Function.update_apply]
    split at hi'
    · next he =>
        rw [if_pos he, he]
        exact ⟨h.current, rfl⟩
    · next he =>
        rw [if_neg he]
        exact h.looping i hi'
  · rw [hparked, h.parkOn_waiterOf]
    exact h.inverse.pair (parkedAt_of_runnable (h.running hlive)) hnone
  · intro i p hp
    rw [hparked, Function.update_apply] at hp
    split at hp
    · cases hp
      exact hkeep _ hring
    · exact hkeep p (h.silent i p hp)

/-! ## One step -/

theorem Inv.after (h : Inv s) {t : Nat} {k : Ipc.Call} {woken : Option (BitVec 32)} {v' : View κ β}
    (he : View.Effect (s.world.view t) k woken v')
    (hclear : ∀ ep c sd, k = .close ep → (s.world.view t).endpoint ep Rights.NONE = .ok (c, sd) →
      s.waiterOf (c, sd) = none) : Inv (s.after t v' woken) := by
  cases he with
  | kept =>
      have hsame : s.after t (s.world.view t) none = s := by
        rw [Host.after, Ipc.World.commit]
        dsimp only [Ipc.World.view]
        rw [Function.update_eq_self]
      rw [hsame]
      exact h
  | sent m hs hc => exact (h.retable (Caps.World.update_change hc)).wake (s.world.view t) rfl m
  | @popped c sd m rest t' hq hc =>
      refine (h.retable (Caps.World.update_change hc)).rechannel (waiterIn_update rfl) ?_
      intro i p hp hsilent
      refine silent_setQueue hsilent ?_
      rintro rfl
      have hcons : ((s.world.chans c).dir sd).q = m :: rest := hq
      rw [hsilent.1] at hcons
      cases hcons
  | @shut ep c sd hk hep =>
      have hnone := hclear ep c sd hk hep
      rw [Host.after, Ipc.World.commit]
      dsimp only [Ipc.World.view]
      rw [Function.update_eq_self]
      refine h.rechannel (waiterIn_update rfl) ?_
      intro i p hp hsilent
      refine silent_closeSide hsilent ?_
      rintro rfl
      exact h.inverse.ne_of_free hnone i hp

omit [DecidableEq κ] in
/-- A ring a receive would wait on is the one its task parks on. -/
theorem silent_of_waitsOn {w : Wait κ} (hden : View.Denotes (s.world.tables w.agent) w.ep (w.chan, w.side))
    {p : κ × Side} (hp : (s.world.view w.agent).waitsOn w.ep = some p) : p = w.ring ∧ Silent s.world.chans w.ring := by
  obtain ⟨c, side, he, rfl, hq, hopen⟩ := View.waitsOn_eq_some.mp hp
  have hcs := hden.endpoint he
  obtain ⟨rfl, rfl⟩ := Prod.mk.inj hcs
  exact ⟨rfl, hq, hopen⟩

/-- A turn of the wait loop that finds the inbox empty and open parks. -/
theorem turn_parks {w : Wait κ} {p : κ × Side} (hagent : s.isAgent w.agent = true)
    (hp : (s.world.view w.agent).waitsOn w.ep = some p) : s.turn w = s.parkOn w := by
  have hsame : s.world.commit w.agent (s.world.view w.agent) = s.world := by
    rw [Ipc.World.commit]
    dsimp only [Ipc.World.view]
    rw [Function.update_eq_self]
  rw [turn, hagent, View.chanRecv_wouldBlock hp]
  dsimp only
  rw [hsame]
  rfl

theorem Inv.turn (h : Inv s) (hlive : s.fatal = false) {w : Wait κ}
    (hden : View.Denotes (s.world.tables w.agent) w.ep (w.chan, w.side))
    (hclear : s.isAgent w.agent = true → ∀ p, (s.world.view w.agent).waitsOn w.ep = some p → s.waiterOf p = none) :
    Inv (s.turn w) := by
  cases hagent : s.isAgent w.agent with
  | false =>
      rw [Host.turn, hagent]
      exact h.leave hlive
  | true =>
      cases hwait : (s.world.view w.agent).waitsOn w.ep with
      | some p =>
          obtain ⟨hpr, hsilent⟩ := silent_of_waitsOn hden hwait
          rw [turn_parks hagent hwait]
          refine h.park hlive hden hsilent ?_
          rw [← hpr]
          exact hclear hagent p hwait
      | none =>
          have heffect := View.call_effect (h.sound w.agent) (.recv w.ep) (v := s.world.view w.agent)
          have hwoken : (s.world.view w.agent).woken (.recv w.ep) = none := by
            rw [View.woken]
            split <;> rfl
          rw [hwoken] at heffect
          have hstep : Inv (s.after w.agent ((s.world.view w.agent).call (.recv w.ep)).2 none) := by
            refine h.after heffect ?_
            intro ep c sd hk
            cases hk
          rw [Host.turn, hagent]
          dsimp only
          rw [if_neg (by decide), if_pos (View.chanRecv_ne_wouldBlock hwait)]
          exact hstep.leave hlive

omit [DecidableEq κ] in
theorem free_iff : s.free = true ↔ s.fatal = false ∧ s.waits s.sched.current = none := by
  rw [free, Bool.and_eq_true, Bool.not_eq_true', Option.isNone_iff_eq_none]

theorem step_inv (s : Host κ β) (e : Event κ β) (hclear : s.Clear e) (h : Inv s) : Inv (s.step e) := by
  cases e with
  | tick =>
      rw [step]
      split
      · refine h.switch (Sched.schedule_state s.sched) ?_ ?_
        · rcases Sched.schedule_current s.sched with hsame | hrun
          · rw [hsame]
            exact h.current
          · exact (Sched.isRunnable_iff.mp hrun).1
        · intro hlive
          rw [Sched.schedule_state]
          rcases Sched.schedule_current s.sched with hsame | hrun
          · rw [hsame]
            exact h.running hlive
          · exact (Sched.isRunnable_iff.mp hrun).2
      · exact h
  | call t k =>
      rw [step]
      split
      · next hfree =>
          rw [agentCall]
          split
          · exact h
          · next hagent =>
              refine h.after (View.call_effect (h.sound t) k) ?_
              rintro ep c sd rfl hep
              refine hclear (c, sd) ?_
              rw [contends, if_pos, hep]
              · rfl
              · rw [Bool.and_eq_true]
                exact ⟨hfree, by simpa using hagent⟩
      · exact h
  | recvBlocking t ep =>
      rw [step]
      split
      · next hfree =>
          rw [agentChanRecvBlocking]
          split
          · exact h
          · next hagent =>
              split
              · exact h
              · next chan side hchan =>
                  refine h.turn (free_iff.mp hfree).1 (View.denotes_of_chanOf hchan) ?_
                  intro _ p hp
                  refine hclear p ?_
                  rw [contends, if_pos]
                  · exact hp
                  · rw [Bool.and_eq_true]
                    exact ⟨hfree, by simpa using hagent⟩
      · exact h
  | again =>
      rw [step]
      split
      · exact h
      · next hlive =>
          split
          · exact h
          · next w hw =>
              refine h.turn (Bool.eq_false_iff.mpr hlive) (h.denotes _ w hw) ?_
              intro hagent p hp
              refine hclear p ?_
              rw [contends, if_neg hlive, hw, Option.bind_some, if_pos hagent]
              exact hp
  | handles op =>
      rw [step]
      split
      · exact h.retable fun t => Caps.World.step_change s.world.tables op t
      · exact h

/-! ## The guard is exact -/

omit [DecidableEq κ] in
theorem Inv.of_waiterOf (h : Inv s) {p : κ × Side} {j : Nat} (hj : s.waiterOf p = some j) :
    s.sched.state j = .blocked ∧ ∃ w, s.waits j = some w ∧ w.ring = p := by
  have hp := (h.inverse j p).mpr hj
  rw [parkedAt] at hp
  split at hp
  · next hb =>
      obtain ⟨w, hw, hring⟩ := Option.map_eq_some_iff.mp hp
      exact ⟨hb, w, hw, hring⟩
  · cases hp

/-- A task that parks where another waits strands it. -/
theorem park_strands (h : Inv s) (hlive : s.fatal = false) {w : Wait κ} {j : Nat} (hj : s.waiterOf w.ring = some j) :
    ¬ (s.parkOn w).NoneStranded := by
  intro hnone
  obtain ⟨hb, -⟩ := h.of_waiterOf hj
  have hne : j ≠ s.sched.current := by
    rintro rfl
    rw [h.running hlive] at hb
    cases hb
  obtain ⟨hstate, -⟩ := Sched.blockCurrentAndYield_spec h.current
  have hb' : (s.parkOn w).sched.state j = .blocked := by
    show s.sched.blockCurrentAndYield.2.state j = .blocked
    rw [hstate, Function.update_of_ne hne]
    exact hb
  obtain ⟨-, -, -, -, p, hp⟩ := hnone j hb'
  rw [h.parkOn_waiterOf] at hp
  exact h.inverse.displaced hj hne p hp

/-- A side that closes while a task waits on its ring strands that task. -/
theorem close_strands (h : Inv s) {t : Nat} {ep : Handle} {c : κ} {sd : Side} {j : Nat}
    (hagent : s.agentAt t = true) (hep : (s.world.view t).endpoint ep Rights.NONE = .ok (c, sd))
    (hj : s.waiterOf (c, sd) = some j) : ¬ (s.agentCall t (.close ep)).NoneStranded := by
  intro hnone
  obtain ⟨hb, w, hw, hring⟩ := h.of_waiterOf hj
  have hwoken : (s.world.view t).woken (.close ep) = none := by
    rw [View.woken]
    split <;> rfl
  rw [agentCall, hagent, hwoken, View.call, View.chanClose, hep] at hnone
  obtain ⟨w', hw', -, hopen, -⟩ := hnone j hb
  rw [show w' = w from Option.some.inj (hw'.symm.trans hw)] at hopen
  obtain ⟨rfl, rfl⟩ := Prod.mk.inj hring
  have hclosed : ((s.world.chans w.chan).closeSide w.side.peer).isOpen w.side.peer = true := by
    have hcore : (Function.update s.world.chans w.chan ((s.world.chans w.chan).closeSide w.side.peer) w.chan).isOpen
        w.side.peer = true := hopen
    rwa [Function.update_self] at hcore
  have hfalse : Function.update (s.world.chans w.chan).isOpen w.side.peer false w.side.peer = true := hclosed
  rw [Function.update_self] at hfalse
  cases hfalse

/-- A step that is not clear strands a task. -/
theorem step_strands (s : Host κ β) (e : Event κ β) (h : Inv s) (hn : ¬ s.Clear e) : ¬ (s.step e).NoneStranded := by
  obtain ⟨p, hn⟩ := not_forall.mp hn
  obtain ⟨hp, hreg⟩ := Classical.not_imp.mp hn
  obtain ⟨j, hj⟩ := Option.ne_none_iff_exists'.mp hreg
  cases e with
  | tick | handles => cases hp
  | call t k =>
      cases k with
      | send | sendBytes | recv | recvBytes => cases hp
      | close ep =>
          rw [contends] at hp
          split at hp
          · next hboth =>
              rw [Bool.and_eq_true] at hboth
              rw [step, if_pos hboth.1]
              exact close_strands h hboth.2 (View.endpoint_of_toOption hp) hj
          · cases hp
  | recvBlocking t ep =>
      rw [contends] at hp
      split at hp
      · next hboth =>
          rw [Bool.and_eq_true] at hboth
          obtain ⟨c, side, hep, rfl, hq, hopen⟩ := View.waitsOn_eq_some.mp hp
          have hchan : (s.world.view t).chanOf ep = some (c, side) := View.chanOf_of_endpoint hep
          have hagent := hboth.2
          rw [agentAt, Bool.and_eq_true] at hagent
          rw [step, if_pos hboth.1, agentChanRecvBlocking, hboth.2, hchan]
          dsimp only
          rw [turn_parks hagent.2 hp]
          exact park_strands h (free_iff.mp hboth.1).1 hj
      · cases hp
  | again =>
      rw [contends] at hp
      split at hp
      · cases hp
      · next hlive =>
          obtain ⟨w, hw, hp⟩ := Option.bind_eq_some_iff.mp hp
          split at hp
          · next hagent =>
              obtain ⟨rfl, -⟩ := silent_of_waitsOn (h.denotes _ w hw) hp
              rw [step, if_neg hlive, hw]
              dsimp only
              rw [turn_parks hagent hp]
              exact park_strands h (Bool.eq_false_iff.mpr hlive) hj
          · cases hp

end Host

/-! ## Runs -/

/-- What the tasks start from: sound tables, fresh channels, every task RUNNABLE. -/
structure Setup (κ β : Type*) where
  tables : Nat → CapTable (Object κ β)
  sound : ∀ t, Sound (tables t)
  bound : κ → Nat
  isAgent : Nat → Bool
  runqueue : List Nat
  current : Nat
  current_lt : current < MAX_TASKS

def Setup.start (b : Setup κ β) : Host κ β where
  world := ⟨b.tables, fun c => Channel.create (b.bound c)⟩
  isAgent := b.isAgent
  sched := ⟨b.runqueue, b.current, fun _ => .runnable⟩
  waits := fun _ => none
  fatal := false

namespace Host

omit [DecidableEq κ] in
theorem inv_start (b : Setup κ β) : Inv b.start := by
  have hparked : b.start.parkedAt = fun _ => none := by
    funext i
    exact parkedAt_of_runnable rfl
  have hwaiters : b.start.waiterOf = fun _ => none := by
    funext p
    exact (waiterIn_eq _ p).trans (if_pos rfl)
  refine ⟨b.sound, b.current_lt, fun _ => rfl, ?_, ?_, ?_, ?_⟩
  · intro i w hw
    cases hw
  · intro i hi
    cases hi
  · rw [hparked, hwaiters]
    exact inverse_empty
  · intro i p hp
    rw [hparked] at hp
    cases hp

/-- All along a run nobody is stranded, exactly when no step closes the ring of a registered
receiver or parks a second receiver on it. -/
theorem never_stranded_iff (b : Setup κ β) (es : List (Event κ β)) :
    (∀ pre post, es = pre ++ post → (exec step b.start pre).NoneStranded) ↔ Guarded step Clear b.start es :=
  always_iff_guarded step_inv (fun _ h => h.noneStranded) step_strands es (inv_start b)

/-- A receiver's table and two senders', and three tasks. -/
def threeTasks : Setup Unit Nat where
  tables t := (Traced.pairWorld 2).tables (t == 0)
  sound t := Traced.pairWorld_sound 2 (t == 0)
  bound _ := 4
  isAgent t := decide (t < 3)
  runqueue := [0, 1, 2]
  current := 0
  current_lt := by decide

/-- The receiver blocks; the sender closes. -/
def closeWhileBlocked : List (Event Unit Nat) :=
  [.recvBlocking 0 (Handle.new 1 0), .call 1 (.close (Handle.new 1 0))]

/-- Two tasks block on one inbox. -/
def blockTwice : List (Event Unit Nat) :=
  [.recvBlocking 0 (Handle.new 1 0), .recvBlocking 0 (Handle.new 1 0)]

/-- After the close a task is BLOCKED on an inbox whose peer has closed; after the second
receive the first receiver is BLOCKED and registered nowhere. -/
theorem close_and_second_receive_strand :
    ¬ (exec step threeTasks.start closeWhileBlocked).NoneStranded ∧
      ¬ (exec step threeTasks.start blockTwice).NoneStranded := by
  refine ⟨?_, ?_⟩
  · intro h
    obtain ⟨w, hw, -, hopen, -⟩ := h 0 (by decide)
    have hwait : (exec step threeTasks.start closeWhileBlocked).waits 0 =
        some ⟨0, Handle.new 1 0, (), .one⟩ := rfl
    rw [hwait] at hw
    cases hw
    exact absurd hopen (by decide)
  · intro h
    obtain ⟨-, -, -, -, p, hp⟩ := h 0 (by decide)
    obtain ⟨c, sd⟩ := p
    cases c
    cases sd with
    | zero => exact absurd hp (by decide)
    | one => exact absurd hp (by decide)

end Host

end Yuva.Kernel
