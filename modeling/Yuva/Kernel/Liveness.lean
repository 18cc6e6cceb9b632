/-
# `Yuva.Kernel.Liveness` — an open flag against the handles behind it

The open flag of a channel side is to say that the side still has an endpoint somewhere: a
handle in a table, or a capability parked in a message that can still be received.  Messages
sit in rings that an endpoint keeps alive, so what refers to an endpoint is an inductive
notion (`Anchored`).

Only `M_CHAN_CLOSE` clears the flag.  A capability goes away in two more ways: its handle is
revoked or closed, or it was parked in a message that is received into a full table
(`Loses`).  Every other call moves capabilities between anchored places, or adds some
(`keeps_act`).  So a run keeps every open side anchored exactly when it never loses the
last anchor of an open side (`open_anchored_iff`).
-/
import Yuva.Kernel.Memory

namespace Yuva.Kernel

open Yuva.Caps CapTable Yuva.Ipc Yuva.Mem Yuva.Blocks Yuva.Run Yuva.Relocate

variable {ι : Type*} [DecidableEq ι]

/-! ## Calls and transfers -/

/-- What principals do: dispatched calls, and moves between two tables. -/
inductive Act (ι : Type*) where
  | dispatch (t : ι) (a : SyscallArgs)
  | transfer (src : ι) (h : Handle) (dst : ι) (hne : src ≠ dst)

namespace World

/-- `transfer_to` between the tables of two principals. -/
def transfer (w : World ι) (src : ι) (h : Handle) (dst : ι) : World ι :=
  let r := (w.tables src).transferTo h (w.tables dst)
  { w with tables := Function.update (Function.update w.tables src r.2.1) dst r.2.2 }

def act (w : World ι) : Act ι → World ι
  | .dispatch t a => w.step (.dispatch t a)
  | .transfer src h dst _ => w.transfer src h dst

end World

theorem act_sound {w : World ι} (hs : ∀ t, Sound (w.tables t)) (a : Act ι) :
    ∀ t, Sound ((w.act a).tables t) := by
  cases a with
  | dispatch t a => exact step_sound hs (.dispatch t a)
  | transfer src h dst hne =>
      intro u
      obtain ⟨hsrc, hdst⟩ := transferTo_change (w.tables src) (w.tables dst) h
      show Sound (Function.update (Function.update w.tables src _) dst _ u)
      rw [Function.update_apply]
      split
      · exact hdst.sound (hs dst)
      · rw [Function.update_apply]
        split
        · exact hsrc.sound (hs src)
        · exact hs u

/-! ## What refers to an endpoint -/

/-- A handle refers to the endpoint, or a message in a ring that an endpoint keeps alive. -/
inductive Anchored (m : Place ι Nat → Option (Obj × Rights)) : Nat → Side → Prop
  | handle {t : ι} {i : Nat} {o : Obj} {r : Rights} {c : Nat} {s : Side} :
      m (.slot t i) = some (o, r) → o.chan = some (c, s) → Anchored m c s
  | parked {c' n : Nat} {side s' : Side} {o : Obj} {r : Rights} {c : Nat} {s : Side} :
      Anchored m c' side → m (.ring c' s' n) = some (o, r) → o.chan = some (c, s) → Anchored m c s

section Anchors

variable {m m' : Place ι Nat → Option (Obj × Rights)}

/-- What was at `p` is in a slot, in the same ring, or in a ring that is kept alive. -/
def Lodged (m' : Place ι Nat → Option (Obj × Rights)) (p : Place ι Nat) (o : Obj) : Prop :=
  (∃ t i r, m' (.slot t i) = some (o, r)) ∨
  ∃ c s n r, m' (.ring c s n) = some (o, r) ∧
    ((∃ s' n', p = .ring c s' n') ∨ ∃ side, Anchored m' c side)

omit [DecidableEq ι] in
/-- Where everything stays lodged, every anchor holds. -/
theorem Anchored.mono (h : ∀ p o r, m p = some (o, r) → Lodged m' p o) {c : Nat} {s : Side}
    (ha : Anchored m c s) : Anchored m' c s := by
  induction ha with
  | handle hm ho =>
      rcases h _ _ _ hm with ⟨t, i, r, hslot⟩ | ⟨c', s', n, r, hring, ⟨_, _, heq⟩ | ⟨side, halive⟩⟩
      · exact .handle hslot ho
      · cases heq
      · exact .parked halive hring ho
  | parked _ hm ho ih =>
      rcases h _ _ _ hm with ⟨t, i, r, hslot⟩ | ⟨c', s', n, r, hring, ⟨_, _, heq⟩ | ⟨side, halive⟩⟩
      · exact .handle hslot ho
      · cases heq
        exact .parked ih hring ho
      · exact .parked halive hring ho

omit [DecidableEq ι] in
/-- What stays at its place stays lodged. -/
theorem Lodged.of_place {p : Place ι Nat} {o : Obj} {r : Rights} (h : m' p = some (o, r)) :
    Lodged m' p o := by
  cases p with
  | slot t i => exact .inl ⟨t, i, r, h⟩
  | ring c s n => exact .inr ⟨c, s, n, r, h, .inl ⟨s, n, rfl⟩⟩

omit [DecidableEq ι] in
theorem Anchored.gains {g : Obj × Rights} (h : Gains m m' g) {c : Nat} {s : Side}
    (ha : Anchored m c s) : Anchored m' c s := by
  obtain ⟨q, hvac, -, hframe⟩ := h
  refine ha.mono fun p o r hp => .of_place (r := r) ?_
  refine (hframe p fun heq => ?_).trans hp
  rw [heq, hvac] at hp
  cases hp

omit [DecidableEq ι] in
/-- A place of a ring that closed up, but for its head, comes from one of the same kind. -/
theorem exists_shift {c : Nat} {s : Side} {p : Place ι Nat} (hp : p ≠ .ring c s 0) :
    ∃ q, shift c s q = p ∧ ∀ (m' : Place ι Nat → Option (Obj × Rights)) o r, m' q = some (o, r) →
      Lodged m' p o := by
  cases p with
  | slot t i => exact ⟨.slot t i, rfl, fun m' o r h => .of_place h⟩
  | ring c' s' n =>
      by_cases hcs : c' = c ∧ s' = s
      · obtain ⟨rfl, rfl⟩ := hcs
        cases n with
        | zero => exact absurd rfl hp
        | succ n =>
            refine ⟨.ring c' s' n, by rw [shift, if_pos ⟨rfl, rfl⟩], fun m' o r h => ?_⟩
            exact .inr ⟨c', s', n, r, h, .inl ⟨s', n + 1, rfl⟩⟩
      · exact ⟨.ring c' s' n, by rw [shift, if_neg hcs], fun m' o r h => .of_place h⟩

omit [DecidableEq ι] in
theorem Lodged.of_shift {c : Nat} {s : Side} {q : Place ι Nat} {o : Obj} {r : Rights}
    (h : m (shift c s q) = some (o, r)) : Lodged m q o := by
  cases q with
  | slot t i => exact .of_place h
  | ring c' s' n =>
      rw [shift] at h
      split at h
      · exact .inr ⟨c', s', n + 1, r, h, .inl ⟨s', n, rfl⟩⟩
      · exact .of_place h

omit [DecidableEq ι] in
theorem shift_ne_head (c : Nat) (s : Side) (q : Place ι Nat) : shift c s q ≠ .ring c s 0 := by
  cases q with
  | slot t i =>
      intro h
      cases h
  | ring c' s' n =>
      rw [shift]
      split
      · intro h
        cases h
      · next hcs =>
          intro h
          cases h
          exact hcs ⟨rfl, rfl⟩

/-- A ring that closed up over its head anchors what it did without the head. -/
theorem anchored_shift_iff {c : Nat} {s : Side} (h : ∀ q, m' q = m (shift c s q)) {c' : Nat} {s' : Side} :
    Anchored m' c' s' ↔ Anchored (Function.update m (.ring c s 0) none) c' s' := by
  constructor
  · refine Anchored.mono fun q o r hq => .of_shift (c := c) (s := s) (r := r) ?_
    rw [Function.update_of_ne (shift_ne_head c s q), ← h, hq]
  · refine Anchored.mono fun p o r hp => ?_
    by_cases hhead : p = .ring c s 0
    · rw [hhead, Function.update_self] at hp
      cases hp
    · rw [Function.update_of_ne hhead] at hp
      obtain ⟨q, hshift, hlodged⟩ := exists_shift hhead
      refine hlodged m' o r ?_
      rw [h, hshift, hp]

end Anchors

/-! ## What goes away -/

/-- The capability at this place goes away: its handle is revoked or closed, or its message
is received into a full table. -/
inductive Loses (w : World ι) : Act ι → Place ι Nat → Prop
  | vacated {t : ι} {a : SyscallArgs} {m : Method} {i : Nat} {o : Obj} :
      (w.proc t).gate w.cognitiveDeny a = some (m, o) → m = .handleRevoke ∨ m = .handleClose →
      (w.tables t).live a.handle = .ok i → Loses w (.dispatch t a) (.slot t i)
  | dropped {t : ι} {a : SyscallArgs} {o : Obj} {c : Nat} {s : Side} :
      (w.proc t).gate w.cognitiveDeny a = some (.chanRecv, o) → o.chan = some (c, s) →
      w.contents (.ring c s.peer 0) ≠ none → (w.tables t).placed = none →
      Loses w (.dispatch t a) (.ring c s.peer 0)

namespace Proc

theorem dispatch_of_gate {p : Proc} {deny : Bool} {a : SyscallArgs} {m : Method} {o : Obj}
    (h : p.gate deny a = some (m, o)) : ∃ i, p.table.live a.handle = .ok i ∧
      p.table.objectAt i = some o ∧ (p.table.rightsAt i).contains (requiredRight m) = true ∧
      p.dispatch deny a = p.run m i a := by
  rcases p.dispatch_gate deny a with ⟨hg, -⟩ | ⟨m', i, o', hg, -, hl, ho, hright, hrun⟩
  · cases hg.symm.trans h
  · cases hg.symm.trans h
    exact ⟨i, hl, ho, hright, hrun⟩

/-- The endpoint behind a handle that carries the right. -/
theorem endpoint_eq {p : Proc} {h : Handle} {need : Rights} {i : Nat} {o : Obj}
    (hl : p.table.live h = .ok i) (ho : p.table.objectAt i = some o)
    (hright : (p.table.rightsAt i).contains need = true) {cs : Nat × Side} (hcs : o.chan = some cs) :
    p.view.endpoint h need = .ok cs := by
  have hl' : p.view.table.live h = .ok i := hl
  have ho' : p.view.table.objectAt i = some o := ho
  have hright' : (p.view.table.rightsAt i).contains need = true := hright
  rw [View.endpoint, hl']
  dsimp only
  rw [hright', ho']
  dsimp only
  rw [hcs]
  rfl

end Proc

omit [DecidableEq ι] in
/-- A capability at the head of a ring is carried by its first message. -/
theorem queue_of_head {w : World ι} {c : Nat} {s : Side} (h : w.contents (.ring c s 0) ≠ none) :
    ∃ m rest, ((w.heap.chans c).dir s).q = m :: rest ∧ m.cap = w.contents (.ring c s 0) := by
  have hcontents : w.contents (.ring c s 0) =
      ((w.heap.chans c).dir s).q[0]?.bind fun m => m.cap := rfl
  rw [hcontents] at h ⊢
  cases hq : ((w.heap.chans c).dir s).q with
  | nil =>
      rw [hq] at h
      exact absurd rfl h
  | cons m rest => exact ⟨m, rest, rfl, rfl⟩

theorem chanRecv_full {v : View Nat Body} {ep : Handle} {c : Nat} {s : Side} {m : Message Obj}
    {rest : List (Message Obj)} (he : v.endpoint ep Rights.READ = .ok (c, s))
    (hq : ((v.chans c).dir s.peer).q = m :: rest) (hcap : m.cap ≠ none) (hfull : v.table.placed = none) :
    (v.chanRecv ep).2 = ⟨v.table, Function.update v.chans c ((v.chans c).setQueue s.peer rest)⟩ := by
  obtain ⟨parked, hparked⟩ := Option.ne_none_iff_exists'.mp hcap
  have hq' : ((v.chans c).inbox s).q = m :: rest := hq
  rw [View.chanRecv, he]
  dsimp only
  rw [hq']
  dsimp only
  rw [View.popAndAttach, hparked]
  dsimp only
  rw [attach, alloc_of_placed_none hfull]

theorem isOpen_setQueue (chans : Nat → Channel Obj) (c : Nat) (s : Side) (q : List (Message Obj))
    (c' : Nat) (s' : Side) :
    (Function.update chans c ((chans c).setQueue s q) c').isOpen s' = (chans c').isOpen s' := by
  rw [Function.update_apply]
  split
  · next hc => rw [hc]; rfl
  · rfl

theorem loses_effect {w : World ι} {a : Act ι} {p : Place ι Nat} (h : Loses w a p) :
    (∀ c s, ((w.act a).heap.chans c).isOpen s = (w.heap.chans c).isOpen s) ∧
    ∀ c s, Anchored (w.act a).contents c s ↔ Anchored (Function.update w.contents p none) c s := by
  cases h with
  | @vacated t a m i o hg hm hl =>
      obtain ⟨j, hl', -, -, hrun⟩ := Proc.dispatch_of_gate hg
      cases hl.symm.trans hl'
      have hproc : ((w.proc t).dispatch w.cognitiveDeny a).2 =
          { w.proc t with table := (w.tables t).freeSlot i } := by
        rw [hrun]
        rcases hm with rfl | rfl <;> rw [Proc.run, revoke, hl'] <;> rfl
      have hact : w.act (.dispatch t a) = w.commit t { w.proc t with table := (w.tables t).freeSlot i } := by
        rw [← hproc]
        rfl
      rw [hact]
      refine ⟨fun c s => rfl, fun c s => ?_⟩
      have hcontents : (w.commit t { w.proc t with table := (w.tables t).freeSlot i }).contents =
          Function.update w.contents (.slot t i) none := by
        funext q
        rw [Function.update_apply]
        split
        · next hq => rw [hq, contents_slot rfl, if_pos rfl, held_freeSlot_self]
        · next hq =>
            have htables : (w.commit t { w.proc t with table := (w.tables t).freeSlot i }).tables =
                Function.update w.tables t ((w.tables t).freeSlot i) := rfl
            exact contents_of_slot htables rfl (fun k hk => held_freeSlot_ne _ hk) q hq
      rw [hcontents]
  | @dropped t a o c s hg hcs hhead hfull =>
      obtain ⟨i, hl, ho, hright, hrun⟩ := Proc.dispatch_of_gate hg
      obtain ⟨m, rest, hq, hcap⟩ := queue_of_head hhead
      have hend : (w.proc t).view.endpoint a.handle Rights.READ = .ok (c, s) :=
        Proc.endpoint_eq hl ho hright hcs
      have hproc : ((w.proc t).dispatch w.cognitiveDeny a).2 = (w.proc t).setView ⟨w.tables t,
          Function.update w.heap.chans c ((w.heap.chans c).setQueue s.peer rest)⟩ := by
        rw [hrun]
        show ((w.proc t).setView ((w.proc t).view.chanRecv a.handle).2) = _
        rw [chanRecv_full hend hq (by rw [hcap]; exact hhead) hfull]
        rfl
      have hact : w.act (.dispatch t a) = w.commit t ((w.proc t).setView ⟨w.tables t,
          Function.update w.heap.chans c ((w.heap.chans c).setQueue s.peer rest)⟩) := by
        rw [← hproc]
        rfl
      rw [hact]
      refine ⟨fun c' s' => ?_, fun c' s' => anchored_shift_iff ?_⟩
      · exact isOpen_setQueue w.heap.chans c s.peer rest c' s'
      · exact contents_pop_shift hq (Function.update_eq_self t w.tables) rfl

/-! ## What stays -/

/-- No side opens, and every anchor holds. -/
structure Keeps (w w' : World ι) : Prop where
  opens : ∀ c s, (w'.heap.chans c).isOpen s = true → (w.heap.chans c).isOpen s = true
  anchors : ∀ c s, Anchored w.contents c s → Anchored w'.contents c s

section Keeps

variable {w w' : World ι} {t : ι}

omit [DecidableEq ι] in
theorem Keeps.same (htab : w'.tables = w.tables) (hch : w'.heap.chans = w.heap.chans) : Keeps w w' := by
  refine ⟨fun c s h => by rwa [hch] at h, fun c s h => ?_⟩
  have hcontents := contents_same htab hch
  rwa [hcontents]

/-- A handle was added, if there was room. -/
theorem Keeps.alloc (hs : Sound (w.tables t)) {r : Rights} {o : Obj}
    (htab : w'.tables = Function.update w.tables t ((w.tables t).alloc r o).2)
    (hch : w'.heap.chans = w.heap.chans) : Keeps w w' := by
  refine ⟨fun c s h => by rwa [hch] at h, fun c s h => ?_⟩
  rcases contents_alloc hs htab hch with ⟨-, hsame⟩ | ⟨-, hgain⟩
  · rwa [hsame]
  · exact h.gains hgain

omit [DecidableEq ι] in
theorem isOpen_enqueue (v : View Nat Body) (c : Nat) (s : Side) (m : Message Obj) (c' : Nat) (s' : Side) :
    ((v.enqueue c s m).chans c').isOpen s' = (v.chans c').isOpen s' := by
  show (Function.update v.chans c _ c').isOpen s' = _
  rw [Function.update_apply]
  split
  · next hc => rw [hc]; rfl
  · rfl

/-- A send of `x`, no end of the same channel, from an endpoint that stays in its table. -/
theorem Keeps.sent {v : View Nat Body} {ep h : Handle} {i j : Nat} {o x : Obj} {c : Nat} {s : Side}
    {m : Message Obj} (hv : v.chans = w.heap.chans) (hl : (w.tables t).live ep = .ok i)
    (ho : (w.tables t).objectAt i = some o) (hcs : o.chan = some (c, s))
    (hl' : (w.tables t).live h = .ok j) (hx : (w.tables t).objectAt j = some x)
    (hother : ∀ cs, x.chan = some cs → cs.1 ≠ c) (hcap : m.cap = some (x, (w.tables t).rightsAt j))
    (htab : w'.tables = Function.update w.tables t ((w.tables t).freeSlot j))
    (hch : w'.heap.chans = (v.enqueue c s m).chans) : Keeps w w' := by
  refine ⟨fun c' s' hopen => ?_, fun c' s' ha => ha.mono fun p y r hp => ?_⟩
  · rw [hch, isOpen_enqueue, hv] at hopen
    exact hopen
  · have hmoved := contents_push_moved hv hl' hx hcap htab hch
    have hij : i ≠ j := by
      rintro rfl
      cases ho.symm.trans hx
      exact hother (c, s) hcs rfl
    have halive : Anchored w'.contents c s := by
      refine .handle (t := t) (i := i) (r := (w.tables t).rightsAt i) ?_ hcs
      rw [hmoved, Relocates.moved, if_neg (by simp), if_neg (by simp [hij])]
      exact held_of_live hl ho
    by_cases hpj : p = .slot t j
    · refine .inr ⟨c, s, ((w.heap.chans c).dir s).q.length, r, ?_, .inr ⟨s, halive⟩⟩
      rw [hmoved, Relocates.moved, if_pos rfl, ← hpj, hp]
    · refine .of_place (r := r) ?_
      rw [hmoved, Relocates.moved, if_neg fun heq => ?_, if_neg hpj, hp]
      rw [heq, contents_end] at hp
      cases hp

/-- A message that carries nothing. -/
theorem Keeps.sent_plain {v : View Nat Body} {c : Nat} {s : Side} {m : Message Obj}
    (hv : v.chans = w.heap.chans) (hcap : m.cap = none) (htab : w'.tables = w.tables)
    (hch : w'.heap.chans = (v.enqueue c s m).chans) : Keeps w w' := by
  refine ⟨fun c' s' hopen => ?_, fun c' s' ha => ?_⟩
  · rw [hch, isOpen_enqueue, hv] at hopen
    exact hopen
  · rwa [contents_push_none hv hcap htab hch]

/-- A message that carries nothing was received. -/
theorem Keeps.received_plain {c : Nat} {s : Side} {m : Message Obj} {rest : List (Message Obj)}
    (hq : ((w.heap.chans c).dir s).q = m :: rest) (hcap : m.cap = none) (htab : w'.tables = w.tables)
    (hch : w'.heap.chans = Function.update w.heap.chans c ((w.heap.chans c).setQueue s rest)) :
    Keeps w w' := by
  refine ⟨fun c' s' hopen => ?_, fun c' s' ha => ?_⟩
  · rwa [hch, isOpen_setQueue] at hopen
  · refine (anchored_shift_iff (contents_pop_shift hq htab hch)).mpr ?_
    have hhead : w.contents (.ring c s 0) = none := by
      show ((w.heap.chans c).dir s).q[0]?.bind _ = _
      rw [hq]
      exact hcap
    rwa [← hhead, Function.update_eq_self]

/-- What a message carries was received into a slot. -/
theorem Keeps.received (hs : Sound (w.tables t)) {c : Nat} {s : Side} {m : Message Obj}
    {rest : List (Message Obj)} {o : Obj} {r : Rights} {h : Handle} {t' : CapTable Obj}
    (hq : ((w.heap.chans c).dir s).q = m :: rest) (hcap : m.cap = some (o, r))
    (ha : (w.tables t).alloc r o = (some h, t')) (htab : w'.tables = Function.update w.tables t t')
    (hch : w'.heap.chans = Function.update w.heap.chans c ((w.heap.chans c).setQueue s rest)) :
    Keeps w w' := by
  obtain ⟨i, hvac, hmoved⟩ := contents_pop_attach_moved hs hq hcap ha htab hch
  refine ⟨fun c' s' hopen => ?_, fun c' s' hanch => hanch.mono fun p x r' hp => ?_⟩
  · rwa [hch, isOpen_setQueue] at hopen
  · by_cases hhead : p = .ring c s 0
    · refine .inl ⟨t, i, r', ?_⟩
      rw [hmoved, shift, Relocates.moved, if_pos rfl, ← hhead, hp]
    · obtain ⟨q, hshift, hlodged⟩ := exists_shift hhead
      refine hlodged w'.contents x r' ?_
      rw [hmoved, hshift, Relocates.moved, if_neg fun heq => ?_, if_neg hhead, hp]
      rw [heq, hvac] at hp
      cases hp

end Keeps

/-! ## One act -/

/-- What a send takes out of the table is no end of the channel it goes into. -/
theorem park_ok {v : View Nat Body} {c : Nat} {capRaw : BitVec 64} {cap : Option (Obj × Rights)}
    {t' : CapTable Obj} (h : v.park c capRaw = (.ok cap, t')) :
    (cap = none ∧ t' = v.table) ∨ ∃ hd j x, v.table.live hd = .ok j ∧ v.table.objectAt j = some x ∧
      (∀ cs, x.chan = some cs → cs.1 ≠ c) ∧ cap = some (x, v.table.rightsAt j) ∧
      t' = v.table.freeSlot j := by
  rw [View.park] at h
  split at h
  · cases h
    exact .inl ⟨rfl, rfl⟩
  · dsimp only at h
    split at h
    · cases h
    · next j hl =>
        obtain ⟨-, x, -, -, hx, -⟩ := objectAt_of_live hl
        split at h
        · cases h
        · split at h
          · cases h
          · next hother =>
              rw [detach, hl] at h
              dsimp only at h
              rw [hx] at h hother
              cases h
              refine .inr ⟨_, j, x, hl, hx, fun cs hcs heq => hother ?_, rfl, rfl⟩
              rw [Option.bind_some, hcs, Option.any_some, decide_eq_true heq]

theorem chanSend_cases (v : View Nat Body) (ep : Handle) (payload capRaw : BitVec 64) :
    (v.chanSend ep payload capRaw).2 = v ∨ ∃ c s cap t', v.endpoint ep Rights.WRITE = .ok (c, s) ∧
      v.park c capRaw = (.ok cap, t') ∧ (v.chanSend ep payload capRaw).2 =
        ({ v with table := t' } : View Nat Body).enqueue c s ⟨payload, none, cap⟩ := by
  rw [View.chanSend]
  split
  · exact .inl rfl
  · next c s he =>
      split
      · exact .inl rfl
      · split
        · exact .inl rfl
        · rw [View.parkAndEnqueue]
          rcases View.park_cases v c capRaw with ⟨e, -, hp⟩ | ⟨t', hp, -⟩
          · rw [hp]
            exact .inl rfl
          · rw [hp]
            exact .inr ⟨c, s, _, t', he, hp, rfl⟩

/-- The handle, the slot and the object behind an endpoint. -/
theorem of_endpoint {v : View Nat Body} {ep : Handle} {need : Rights} {cs : Nat × Side}
    (h : v.endpoint ep need = .ok cs) : ∃ i o, v.table.live ep = .ok i ∧ v.table.objectAt i = some o ∧
      o.chan = some cs := by
  rw [View.endpoint] at h
  split at h
  · cases h
  · next i hl =>
      split at h
      · cases h
      · split at h
        · cases h
        · next o ho =>
            split at h
            · cases h
            · next cs' hcs =>
                cases h
                exact ⟨i, o, hl, ho, hcs⟩

section Calls

variable {w : World ι} {t : ι}

theorem keeps_send (ep : Handle) (payload capRaw : BitVec 64) :
    Keeps w (w.commit t ((w.proc t).setView ((w.proc t).view.chanSend ep payload capRaw).2)) := by
  rcases chanSend_cases (w.proc t).view ep payload capRaw with hsame | ⟨c, s, cap, t', he, hp, hsent⟩
  · rw [hsame]
    exact .same (Function.update_eq_self t w.tables) rfl
  · obtain ⟨i, o, hl, ho, hcs⟩ := of_endpoint he
    rw [hsent]
    rcases park_ok hp with ⟨hnone, htab⟩ | ⟨hd, j, x, hl', hx, hother, hcap, htab⟩
    · refine .sent_plain (v := ⟨t', w.heap.chans⟩) rfl hnone ?_ rfl
      show Function.update w.tables t t' = w.tables
      rw [htab]
      exact Function.update_eq_self t w.tables
    · subst htab
      exact .sent (v := ⟨_, w.heap.chans⟩) rfl hl ho hcs hl' hx hother hcap rfl rfl

theorem keeps_recv (hs : ∀ t, Sound (w.tables t)) {ep : Handle}
    (h : ∀ c s, (w.proc t).view.endpoint ep Rights.READ = .ok (c, s) →
      w.contents (.ring c s.peer 0) ≠ none → (w.tables t).placed ≠ none) :
    Keeps w (w.commit t ((w.proc t).setView ((w.proc t).view.chanRecv ep).2)) := by
  rw [View.chanRecv]
  split
  · exact .same (Function.update_eq_self t w.tables) rfl
  · next c s he =>
      split
      · exact .same (Function.update_eq_self t w.tables) rfl
      · next m rest hq =>
          have hq' : ((w.heap.chans c).dir s.peer).q = m :: rest := hq
          have hhead : w.contents (.ring c s.peer 0) = m.cap := by
            show ((w.heap.chans c).dir s.peer).q[0]?.bind _ = _
            rw [hq']
            rfl
          rw [View.popAndAttach]
          cases hcap : m.cap with
          | none => exact .received_plain hq' hcap (Function.update_eq_self t w.tables) rfl
          | some parked =>
              have hroom : (w.tables t).placed ≠ none :=
                h c s he (by rw [hhead, hcap]; exact Option.some_ne_none parked)
              obtain ⟨i, hi⟩ := Option.ne_none_iff_exists'.mp hroom
              obtain ⟨hd, t', g, ha, -⟩ := alloc_of_placed hi parked.2 parked.1
              have ha' : (w.proc t).view.table.attach parked = (some hd, t') := ha
              dsimp only
              rw [ha']
              exact .received (hs t) hq' hcap ha rfl rfl

theorem keeps_close (ep : Handle) :
    Keeps w (w.commit t ((w.proc t).setView ((w.proc t).view.chanClose ep).2)) := by
  rw [View.chanClose]
  split
  · exact .same (Function.update_eq_self t w.tables) rfl
  · next c s he =>
      refine ⟨fun c' s' hopen => ?_, fun c' s' ha => ha.mono fun p o r hp => .of_place (r := r) ?_⟩
      · have hopen' : (Function.update w.heap.chans c ((w.heap.chans c).closeSide s) c').isOpen s' = true :=
          hopen
        rw [Function.update_apply] at hopen'
        split at hopen'
        · next hc =>
            subst hc
            have hside : Function.update (w.heap.chans c').isOpen s false s' = true := hopen'
            rw [Function.update_apply] at hside
            split at hside
            · cases hside
            · exact hside
        · exact hopen'
      · rw [← hp]
        cases p with
        | slot u i =>
            show (Function.update w.tables t (w.tables t) u).held i = (w.tables u).held i
            rw [Function.update_eq_self]
        | ring c' s' n =>
            show ((Function.update w.heap.chans c ((w.heap.chans c).closeSide s) c').dir s').q[n]?.bind _ =
              ((w.heap.chans c').dir s').q[n]?.bind _
            rw [Function.update_apply]
            split
            · next hc => rw [hc]; rfl
            · rfl

/-- The arms that read an object leave the channels, and at most place a working copy. -/
theorem objectArm_tables (p : Proc) (m : Method) (o : Obj) (a : SyscallArgs) :
    (p.objectArm m o a).2.heap.chans = p.heap.chans ∧ ((p.objectArm m o a).2.table = p.table ∨
      ∃ x : Obj, (p.objectArm m o a).2.table = (p.table.alloc Rights.READ x).2) := by
  have hmem : ∀ f, (p.onMem o f).2.heap.chans = p.heap.chans ∧ (p.onMem o f).2.table = p.table := by
    intro f
    rw [Proc.onMem]
    split <;> exact ⟨rfl, rfl⟩
  have hblock : ∀ f, (p.onBlock o f).2.heap.chans = p.heap.chans ∧ (p.onBlock o f).2.table = p.table := by
    intro f
    rw [Proc.onBlock]
    split
    · exact ⟨rfl, rfl⟩
    · split <;> exact ⟨rfl, rfl⟩
  cases m with
  | memWrite | memWriteProc | memConsolidate => exact (hmem _).imp_right .inl
  | blockWrite | blockRead => exact (hblock _).imp_right .inl
  | memRead =>
      rw [Proc.objectArm, Proc.readArm]
      split
      · exact (hmem _).imp_right .inl
      · exact ⟨rfl, .inl rfl⟩
      · exact ⟨rfl, .inl rfl⟩
  | memRecall =>
      rw [Proc.objectArm, Proc.recallArm]
      split
      · exact ⟨rfl, .inl rfl⟩
      · dsimp only
        split
        · exact ⟨rfl, .inl rfl⟩
        · exact ⟨rfl, .inr ⟨_, rfl⟩⟩
  | modelInvoke =>
      rw [Proc.objectArm]
      split <;> exact ⟨rfl, .inl rfl⟩
  | objectInspect | handleDup | handleNarrow | handleTransfer | handleRevoke | handleClose
  | agentSpawn | emitExternal | budgetDelegate | chanSend | chanRecv | chanClose | blockMap
  | blockUnmap | modelInvokeBytes => exact ⟨rfl, .inl rfl⟩

theorem keeps_objectArm (hs : ∀ t, Sound (w.tables t)) (m : Method) (o : Obj) (a : SyscallArgs) :
    Keeps w (w.commit t ((w.proc t).objectArm m o a).2) := by
  obtain ⟨hch, hsame | ⟨x, halloc⟩⟩ := objectArm_tables (w.proc t) m o a
  · refine .same ?_ hch
    show Function.update w.tables t ((w.proc t).objectArm m o a).2.table = w.tables
    rw [hsame]
    exact Function.update_eq_self t w.tables
  · refine .alloc (t := t) (r := Rights.READ) (o := x) (hs t) ?_ hch
    show Function.update w.tables t ((w.proc t).objectArm m o a).2.table = _
    rw [halloc]
    rfl

/-- A dispatched call that loses nothing keeps every anchor. -/
theorem keeps_dispatch (hs : ∀ t, Sound (w.tables t)) {a : SyscallArgs}
    (h : ∀ p, ¬ Loses w (.dispatch t a) p) : Keeps w (w.act (.dispatch t a)) := by
  show Keeps w (w.commit t ((w.proc t).dispatch w.cognitiveDeny a).2)
  cases hg : (w.proc t).gate w.cognitiveDeny a with
  | none =>
      rcases (w.proc t).dispatch_gate w.cognitiveDeny a with ⟨-, hsame, -⟩ | ⟨m, i, o, hsome, -⟩
      · rw [hsame, w.commit_proc t]
        exact .same rfl rfl
      · cases hg.symm.trans hsome
  | some mo =>
      obtain ⟨m, o⟩ := mo
      obtain ⟨i, hl, ho, hright, hrun⟩ := Proc.dispatch_of_gate hg
      rw [hrun]
      cases m with
      | handleDup =>
          rw [Proc.run, dup, hl]
          dsimp only
          rw [ho]
          exact .alloc (hs t) rfl rfl
      | handleNarrow =>
          rw [Proc.run, narrow, hl]
          dsimp only
          rw [ho]
          exact .alloc (hs t) rfl rfl
      | handleRevoke => exact absurd (.vacated hg (.inl rfl) hl) (h _)
      | handleClose => exact absurd (.vacated hg (.inr rfl) hl) (h _)
      | chanSend => exact keeps_send a.handle a.a0 a.a1
      | chanRecv =>
          refine keeps_recv hs fun c s he hhead hfull => ?_
          obtain ⟨i', o', hl', ho', hcs⟩ := of_endpoint he
          cases hl.symm.trans hl'
          cases ho.symm.trans ho'
          exact h _ (.dropped hg hcs hhead hfull)
      | chanClose => exact keeps_close a.handle
      | objectInspect | handleTransfer | agentSpawn | emitExternal | budgetDelegate | blockMap
      | blockUnmap | modelInvokeBytes => exact .same (Function.update_eq_self t w.tables) rfl
      | modelInvoke | memWriteProc | memRecall | memConsolidate | memWrite | memRead | blockWrite
      | blockRead =>
          unfold Proc.run
          dsimp only
          rw [ho]
          exact keeps_objectArm hs _ o a

end Calls

/-- A transfer does nothing, or moves what a slot of the source held to a vacant slot. -/
theorem transfer_contents {w : World ι} (hs : ∀ t, Sound (w.tables t)) (src : ι) (h : Handle) (dst : ι) :
    (w.transfer src h dst).contents = w.contents ∨
      ∃ i k c, w.contents (.slot src i) = some c ∧ w.contents (.slot dst k) = none ∧
        (w.transfer src h dst).contents (.slot dst k) = some c ∧
        ∀ p, p ≠ .slot src i → p ≠ .slot dst k → (w.transfer src h dst).contents p = w.contents p := by
  have hidle : (∀ p, (w.tables src).live h ≠ .ok p) ∨ (w.tables dst).placed = none →
      (w.transfer src h dst).contents = w.contents := by
    intro hf
    refine contents_same ?_ rfl
    show Function.update (Function.update w.tables src ((w.tables src).transferTo h (w.tables dst)).2.1) dst
      ((w.tables src).transferTo h (w.tables dst)).2.2 = w.tables
    rw [transferTo_of_unplaced hf, Function.update_eq_self, Function.update_eq_self]
  cases hl : (w.tables src).live h with
  | error e => exact .inl (hidle (.inl fun p hp => nomatch hl.symm.trans hp))
  | ok i =>
      cases hroom : (w.tables dst).placed with
      | none => exact .inl (hidle (.inr hroom))
      | some j =>
          obtain ⟨-, o, -, -, ho, -⟩ := objectAt_of_live hl
          obtain ⟨moved, t', g, ha, -⟩ := alloc_of_placed hroom ((w.tables src).rightsAt i) o
          obtain ⟨k, hvac, hnew, -, hframe⟩ := held_alloc (hs dst) ha
          have hmove : (w.tables src).transferTo h (w.tables dst) =
              (some moved, (w.tables src).freeSlot i, t') := by
            have ha' : (w.tables dst).attach (o, (w.tables src).rightsAt i) = (some moved, t') := ha
            rw [transferTo, hl]
            dsimp only
            rw [ho]
            dsimp only
            rw [ha']
          have hslot : ∀ u n, (w.transfer src h dst).contents (.slot u n) =
              if u = dst then t'.held n
              else if u = src then ((w.tables src).freeSlot i).held n else w.contents (.slot u n) := by
            intro u n
            show (Function.update (Function.update w.tables src
              ((w.tables src).transferTo h (w.tables dst)).2.1) dst
                ((w.tables src).transferTo h (w.tables dst)).2.2 u).held n = _
            rw [hmove, Function.update_apply, Function.update_apply]
            split
            · rfl
            · split <;> rfl
          refine .inr ⟨i, k, _, held_of_live hl ho, hvac, ?_, fun p hfrom hto => ?_⟩
          · rw [hslot, if_pos rfl, hnew]
          · cases p with
            | ring c s n => rfl
            | slot u n =>
                rw [hslot]
                split
                · next hu =>
                    subst hu
                    exact hframe n fun hn => hto (by rw [hn])
                · split
                  · next hu =>
                      subst hu
                      exact held_freeSlot_ne _ fun hn => hfrom (by rw [hn])
                  · rfl

theorem keeps_transfer {w : World ι} (hs : ∀ t, Sound (w.tables t)) (src : ι) (h : Handle) (dst : ι) :
    Keeps w (w.transfer src h dst) := by
  refine ⟨fun c s hopen => hopen, fun c s hanch => ?_⟩
  rcases transfer_contents hs src h dst with hsame | ⟨i, k, o, hfrom, hvac, hnew, hframe⟩
  · rwa [hsame]
  · refine hanch.mono fun p x r hp => ?_
    by_cases hi : p = .slot src i
    · -- what the source slot held is in the destination
      rw [hi, hfrom] at hp
      cases hp
      exact .inl ⟨dst, k, r, hnew⟩
    · refine .of_place (r := r) ?_
      rw [hframe p hi fun hk => nomatch (hk ▸ hvac).symm.trans hp]
      exact hp

theorem keeps_act {w : World ι} (hs : ∀ t, Sound (w.tables t)) {a : Act ι} (h : ∀ p, ¬ Loses w a p) :
    Keeps w (w.act a) := by
  cases a with
  | dispatch t a => exact keeps_dispatch hs h
  | transfer src hd dst hne => exact keeps_transfer hs src hd dst

/-! ## Open sides along a run -/

/-- Every open side of these channels is anchored. -/
def Held (K : Set Nat) (w : World ι) : Prop :=
  ∀ c ∈ K, ∀ s, (w.heap.chans c).isOpen s = true → Anchored w.contents c s

/-- The act loses the last anchor of an open side. -/
def Severs (K : Set Nat) (w : World ι) (a : Act ι) : Prop :=
  ∃ p, Loses w a p ∧ ∃ c ∈ K, ∃ s, (w.heap.chans c).isOpen s = true ∧
    ¬ Anchored (Function.update w.contents p none) c s

theorem act_held {K : Set Nat} {w : World ι} (hs : ∀ t, Sound (w.tables t)) (hheld : Held K w) (a : Act ι) :
    Held K (w.act a) ↔ ¬ Severs K w a := by
  constructor
  · rintro hafter ⟨p, hloses, c, hc, s, hopen, hcut⟩
    obtain ⟨hopens, hanchors⟩ := loses_effect hloses
    exact hcut ((hanchors c s).mp (hafter c hc s ((hopens c s).trans hopen)))
  · intro hno c hc s hopen
    by_cases hloses : ∃ p, Loses w a p
    · obtain ⟨p, hp⟩ := hloses
      obtain ⟨hopens, hanchors⟩ := loses_effect hp
      refine (hanchors c s).mpr (not_not.mp fun hcut => hno ⟨p, hp, c, hc, s, ?_, hcut⟩)
      exact (hopens c s).symm.trans hopen
    · obtain ⟨hopens, hanchors⟩ := keeps_act hs (not_exists.mp hloses)
      exact hanchors c s (hheld c hc s (hopens c s hopen))

/-- From a world where every open side is anchored, a run keeps it so exactly when no act
loses the last anchor of an open side. -/
theorem open_anchored_iff {K : Set Nat} {w : World ι} (hs : ∀ t, Sound (w.tables t)) (hheld : Held K w)
    (acts : List (Act ι)) :
    (∀ pre post, acts = pre ++ post → Held K (exec World.act w pre)) ↔
      Guarded World.act (fun w a => ¬ Severs K w a) w acts := by
  refine always_iff_guarded (P := fun w => (∀ t, Sound (w.tables t)) ∧ Held K w) ?_ (fun _ h => h.2) ?_
    acts ⟨hs, hheld⟩
  · exact fun w a hguard h => ⟨act_sound h.1 a, (act_held h.1 h.2 a).mpr hguard⟩
  · exact fun w a h hguard hafter => hguard ((act_held h.1 h.2 a).mp hafter)

/-- A channel, an end in each of two tables. -/
def connect : List (Op Bool) :=
  [.createChannel 1,
   .mint false (Rights.READ.union Rights.WRITE) (.endpoint 0 .zero),
   .mint true (Rights.READ.union Rights.WRITE) (.endpoint 0 .one)]

def connected : World Bool := exec World.step (World.boot fun _ => 4) connect

theorem connected_sound : ∀ t, Sound (connected.tables t) :=
  exec_inv (P := fun w : World Bool => ∀ t, Sound (w.tables t)) (fun _ op hs => step_sound hs op) connect
    fun _ => sound_withCapacity 4

theorem connected_held : Held {0} connected := by
  rintro c rfl s -
  cases s with
  | zero => exact .handle (t := false) (i := 0) rfl rfl
  | one => exact .handle (t := true) (i := 0) rfl rfl

/-- The end moved over, and both sides are anchored in one table. -/
theorem transfer_keeps_anchors : Held {0} (exec World.act connected
    [.transfer false (Handle.new 1 0) true Bool.false_ne_true]) := by
  have hguard : Guarded World.act (fun w a => ¬ Severs {0} w a) connected
      [.transfer false (Handle.new 1 0) true Bool.false_ne_true] := by
    refine ⟨?_, trivial⟩
    rintro ⟨p, hloses, -⟩
    cases hloses
  exact (open_anchored_iff connected_sound connected_held _).mpr hguard _ [] rfl

/-- The only handle to an end is closed, without a close of the channel. -/
def closeEnd : Act Bool := .dispatch false ⟨5, Handle.new 1 0, 0, 0, 0, 0⟩

theorem closeEnd_contents {p : Place Bool Nat} {c : Obj × Rights}
    (h : (connected.act closeEnd).contents p = some c) : c.1.chan = some (0, .one) := by
  have hring : ∀ c s, (((connected.act closeEnd).heap.chans c).dir s).q = [] := by
    intro c s
    show ((Function.update (fun _ => Channel.create 0) 0 (Channel.create 1) c : Channel Obj).dir s).q = []
    rw [Function.update_apply]
    split <;> rfl
  cases p with
  | ring c s n =>
      have hnone : (((connected.act closeEnd).heap.chans c).dir s).q[n]?.bind (fun m => m.cap) = some _ := h
      rw [hring] at hnone
      cases hnone
  | slot t i =>
      cases t with
      | false =>
          cases i with
          | zero => cases h
          | succ i => cases h
      | true =>
          cases i with
          | zero => cases h; rfl
          | succ i => cases h

/-- The side stays open, and nothing refers to it. -/
theorem closed_end_stays_open : ¬ ∀ pre post, [closeEnd] = pre ++ post →
    Held {0} (exec World.act connected pre) := by
  intro h
  have hopen : ((connected.act closeEnd).heap.chans 0).isOpen .zero = true := by
    decide
  have hanch := h [closeEnd] [] rfl 0 rfl .zero hopen
  cases hanch with
  | handle hm ho => cases (closeEnd_contents hm).symm.trans ho
  | parked _ hm ho => cases (closeEnd_contents hm).symm.trans ho

end Yuva.Kernel
