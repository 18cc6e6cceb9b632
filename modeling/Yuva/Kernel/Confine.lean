/-
# `Yuva.Kernel.Confine` — how far a capability without `DUP` spreads

Capabilities to an object are in table slots, as live handles, or parked in channel
rings.  `Flow` is what one call can do to all of them:

    recedes   they move or go away, none is added
    copies    one is copied within a table: behind `DUP`, or by a narrowing
    mints     one appears, to an object that did not exist

So where no capability to an object carries `DUP`, their number grows only by
narrowings, which by design need no right, and none of them ever gains `DUP`.
-/
import Yuva.Kernel.System

namespace Yuva.Kernel

open Yuva.Caps CapTable Yuva.Ipc Yuva.Mem Yuva.Blocks Yuva.Run Yuva.Relocate

variable {ι : Type*} [DecidableEq ι]

/-- What each place holds. -/
def World.contents (w : World ι) : Place ι Nat → Option (Obj × Rights)
  | .slot t i => (w.tables t).held i
  | .ring c s n => ((w.heap.chans c).dir s).q[n]?.bind fun m => m.cap

/-! ## One table -/

section Table

variable {w w' : World ι} {t : ι}

theorem contents_slot {t' : CapTable Obj} (htab : w'.tables = Function.update w.tables t t') (u : ι) (i : Nat) :
    w'.contents (.slot u i) = if u = t then t'.held i else w.contents (.slot u i) := by
  show (w'.tables u).held i = _
  rw [htab, Function.update_apply]
  split <;> rfl

omit [DecidableEq ι] in
theorem contents_ring (hch : w'.heap.chans = w.heap.chans) (c : Nat) (s : Side) (n : Nat) :
    w'.contents (.ring c s n) = w.contents (.ring c s n) := by
  show ((w'.heap.chans c).dir s).q[n]?.bind _ = _
  rw [hch]
  rfl

/-- A table that changes nowhere but at one slot changes the contents there only. -/
theorem contents_of_slot {t' : CapTable Obj} {i : Nat}
    (htab : w'.tables = Function.update w.tables t t') (hch : w'.heap.chans = w.heap.chans)
    (hframe : ∀ j, j ≠ i → t'.held j = (w.tables t).held j) (p : Place ι Nat) (hp : p ≠ .slot t i) :
    w'.contents p = w.contents p := by
  cases p with
  | ring c s n => exact contents_ring hch c s n
  | slot u j =>
      rw [contents_slot htab]
      split
      · next hu =>
          subst hu
          exact hframe j fun hj => hp (by rw [hj])
      · rfl

theorem contents_alloc (ht : Sound (w.tables t)) {r : Rights} {o : Obj}
    (htab : w'.tables = Function.update w.tables t ((w.tables t).alloc r o).2)
    (hch : w'.heap.chans = w.heap.chans) :
    ((w.tables t).alloc r o).1 = none ∧ w'.contents = w.contents ∨
      ((w.tables t).alloc r o).1 ≠ none ∧ Gains w.contents w'.contents (o, r) := by
  cases ha : (w.tables t).alloc r o with
  | mk h t' =>
      rw [ha] at htab
      cases h with
      | none =>
          have hsame : t' = w.tables t := by
            cases hp : (w.tables t).placed with
            | none => rw [alloc_of_placed_none hp] at ha; exact (Prod.mk.inj ha).2.symm
            | some i =>
                obtain ⟨h', t'', g, ha', -⟩ := alloc_of_placed hp r o
                rw [ha] at ha'
                cases ha'
          refine .inl ⟨rfl, funext fun p => ?_⟩
          cases p with
          | ring c s n => exact contents_ring hch c s n
          | slot u j =>
              rw [contents_slot htab, hsame]
              split
              · next hu => rw [hu]; rfl
              · rfl
      | some h =>
          obtain ⟨i, hvac, hnew, -, hframe⟩ := held_alloc ht ha
          refine .inr ⟨Option.some_ne_none h, .slot t i, hvac, ?_, ?_⟩
          · rw [contents_slot htab, if_pos rfl]
            exact hnew
          · intro p hp
            exact contents_of_slot htab hch hframe p hp

theorem contents_alloc_commit (ht : Sound (w.tables t)) (r : Rights) (o : Obj) :
    ((w.tables t).alloc r o).1 = none ∧
        (w.commit t { w.proc t with table := ((w.tables t).alloc r o).2 }).contents = w.contents ∨
      ((w.tables t).alloc r o).1 ≠ none ∧ Gains w.contents
        (w.commit t { w.proc t with table := ((w.tables t).alloc r o).2 }).contents (o, r) :=
  contents_alloc ht rfl rfl

theorem contents_vacate {i : Nat} (htab : w'.tables = Function.update w.tables t ((w.tables t).freeSlot i))
    (hch : w'.heap.chans = w.heap.chans) : Recedes w.contents w'.contents := by
  refine .of_le fun p c hc => ?_
  by_cases hp : p = .slot t i
  · rw [hp, contents_slot htab, if_pos rfl, held_freeSlot_self] at hc
    cases hc
  · rw [← contents_of_slot htab hch (fun j hj => held_freeSlot_ne _ hj) p hp]
    exact hc

end Table

/-! ## The channels -/

/-- The places of a ring, one further from the head. -/
def shift (c : Nat) (s : Side) : Place ι Nat → Place ι Nat
  | .ring c' s' n => if c' = c ∧ s' = s then .ring c' s' (n + 1) else .ring c' s' n
  | .slot t i => .slot t i

omit [DecidableEq ι] in
theorem shift_injective (c : Nat) (s : Side) : Function.Injective (shift c s : Place ι Nat → Place ι Nat) := by
  intro p q h
  cases p with
  | slot t i =>
      cases q with
      | slot u j => exact h
      | ring c' s' n =>
          rw [shift, shift] at h
          split at h <;> cases h
  | ring c' s' n =>
      cases q with
      | slot u j =>
          rw [shift, shift] at h
          split at h <;> cases h
      | ring c'' s'' n' =>
          rw [shift, shift] at h
          split at h
          · split at h
            · cases h; rfl
            · next hin hout => cases h; exact absurd hin hout
          · split at h
            · next hout hin => cases h; exact absurd hin hout
            · exact h

section Channel

variable {w w' : World ι} {t : ι} {c : Nat} {s : Side} {m : Message Obj} {rest : List (Message Obj)}

omit [DecidableEq ι] in
/-- A ring that lost its head holds what it held, one place nearer. -/
theorem contents_pop_ring (hq : ((w.heap.chans c).dir s).q = m :: rest)
    (hch : w'.heap.chans = Function.update w.heap.chans c ((w.heap.chans c).setQueue s rest))
    (c' : Nat) (s' : Side) (n : Nat) :
    w'.contents (.ring c' s' n) = w.contents (shift c s (.ring c' s' n)) := by
  show ((w'.heap.chans c').dir s').q[n]?.bind _ = _
  rw [hch, Traced.pop_q, shift]
  by_cases hcs : c' = c ∧ s' = s
  · obtain ⟨rfl, rfl⟩ := hcs
    rw [if_pos ⟨rfl, rfl⟩, if_pos ⟨rfl, rfl⟩]
    show _ = ((w.heap.chans c').dir s').q[n + 1]?.bind _
    rw [hq, List.getElem?_cons_succ]
  · rw [if_neg hcs, if_neg hcs]
    rfl

omit [DecidableEq ι] in
theorem contents_pop_shift (hq : ((w.heap.chans c).dir s).q = m :: rest) (htab : w'.tables = w.tables)
    (hch : w'.heap.chans = Function.update w.heap.chans c ((w.heap.chans c).setQueue s rest))
    (p : Place ι Nat) : w'.contents p = w.contents (shift c s p) := by
  cases p with
  | slot u i =>
      show (w'.tables u).held i = (w.tables u).held i
      rw [htab]
  | ring c' s' n => exact contents_pop_ring hq hch c' s' n

omit [DecidableEq ι] in
/-- The head of a ring goes, with what it carried. -/
theorem contents_pop (hq : ((w.heap.chans c).dir s).q = m :: rest) (htab : w'.tables = w.tables)
    (hch : w'.heap.chans = Function.update w.heap.chans c ((w.heap.chans c).setQueue s rest)) :
    Recedes w.contents w'.contents :=
  .of_injective (shift_injective c s) (contents_pop_shift hq htab hch)

/-- The capability at the head of a ring moves to a slot that was vacant, then the ring
closes up. -/
theorem contents_pop_attach_moved (ht : Sound (w.tables t)) {o : Obj} {r : Rights} {h : Handle}
    {t' : CapTable Obj} (hq : ((w.heap.chans c).dir s).q = m :: rest) (hcap : m.cap = some (o, r))
    (ha : (w.tables t).alloc r o = (some h, t')) (htab : w'.tables = Function.update w.tables t t')
    (hch : w'.heap.chans = Function.update w.heap.chans c ((w.heap.chans c).setQueue s rest)) :
    ∃ i, w.contents (.slot t i) = none ∧ ∀ p, w'.contents p =
      Relocates.moved w.contents (.ring c s 0) (.slot t i) (shift c s p) := by
  obtain ⟨i, hvac, hnew, -, hframe⟩ := held_alloc ht ha
  have hhead : w.contents (.ring c s 0) = some (o, r) := by
    show ((w.heap.chans c).dir s).q[0]?.bind _ = _
    rw [hq]
    exact hcap
  refine ⟨i, hvac, fun p => ?_⟩
  rw [Relocates.moved, hhead]
  cases p with
  | slot u j =>
      rw [shift, contents_slot htab, if_neg (show Place.slot u j ≠ .ring c s 0 by simp)]
      by_cases hu : u = t
      · subst hu
        rw [if_pos rfl]
        by_cases hj : j = i
        · subst hj
          rw [hnew, if_pos rfl]
        · rw [hframe j hj, if_neg (by simp [hj])]
          rfl
      · rw [if_neg hu, if_neg (by simp [hu])]
  | ring c' s' n =>
      have hback : shift c s (.ring c' s' n) ≠ (.ring c s 0 : Place ι Nat) := by
        rw [shift]
        split
        · simp
        · next hcs =>
            intro heq
            cases heq
            exact hcs ⟨rfl, rfl⟩
      have hslot : shift c s (.ring c' s' n) ≠ .slot t i := by
        rw [shift]
        split <;> simp
      rw [contents_pop_ring hq hch, if_neg hslot, if_neg hback]

/-- The head of a ring goes, and what it carried is in a slot that was vacant. -/
theorem contents_pop_attach (ht : Sound (w.tables t)) {o : Obj} {r : Rights} {h : Handle}
    {t' : CapTable Obj} (hq : ((w.heap.chans c).dir s).q = m :: rest) (hcap : m.cap = some (o, r))
    (ha : (w.tables t).alloc r o = (some h, t')) (htab : w'.tables = Function.update w.tables t t')
    (hch : w'.heap.chans = Function.update w.heap.chans c ((w.heap.chans c).setQueue s rest)) :
    Recedes w.contents w'.contents := by
  obtain ⟨i, hvac, hmoved⟩ := contents_pop_attach_moved ht hq hcap ha htab hch
  exact (Recedes.of_relocates (.of_moved (by simp) hvac)).trans
    (.of_injective (shift_injective c s) hmoved)

/-- A message at the end of a ring holds what it carries there. -/
theorem contents_push_ring {v : View Nat Body} (hv : v.chans = w.heap.chans)
    (hch : w'.heap.chans = (v.enqueue c s m).chans) (c' : Nat) (s' : Side) (n : Nat) :
    w'.contents (.ring c' s' n) = if (.ring c' s' n : Place ι Nat) =
      .ring c s ((w.heap.chans c).dir s).q.length then m.cap else w.contents (.ring c' s' n) := by
  show ((w'.heap.chans c').dir s').q[n]?.bind _ = _
  rw [hch, Traced.enqueue_q, hv]
  by_cases hcs : c' = c ∧ s' = s
  · obtain ⟨rfl, rfl⟩ := hcs
    rw [if_pos ⟨rfl, rfl⟩, List.getElem?_append]
    split
    · next hlt =>
        rw [if_neg fun heq => Nat.lt_irrefl n (by cases heq; exact hlt)]
        rfl
    · next hge =>
        rw [List.getElem?_singleton]
        split
        · next hlast =>
            have hn : n = ((w.heap.chans c').dir s').q.length := by omega
            rw [if_pos (congrArg (Place.ring c' s') hn)]
            rfl
        · next hbeyond =>
            rw [if_neg fun heq => hbeyond (by cases heq; omega)]
            show _ = ((w.heap.chans c').dir s').q[n]?.bind _
            rw [List.getElem?_eq_none (by omega)]
  · rw [if_neg hcs, if_neg fun heq => hcs (by cases heq; exact ⟨rfl, rfl⟩)]
    rfl

omit [DecidableEq ι] in
theorem contents_end : w.contents (.ring c s ((w.heap.chans c).dir s).q.length) = none := by
  show ((w.heap.chans c).dir s).q[_]?.bind _ = _
  rw [List.getElem?_eq_none (Nat.le_refl _)]
  rfl

theorem contents_push_none {v : View Nat Body} (hv : v.chans = w.heap.chans) (hcap : m.cap = none)
    (htab : w'.tables = w.tables) (hch : w'.heap.chans = (v.enqueue c s m).chans) :
    w'.contents = w.contents := by
  funext p
  cases p with
  | slot u j =>
      show (w'.tables u).held j = (w.tables u).held j
      rw [htab]
  | ring c' s' n =>
      rw [contents_push_ring hv hch, hcap]
      split
      · next heq => rw [heq, contents_end]
      · rfl

/-- What a message carries moves from its slot to the end of the ring. -/
theorem contents_push_moved {v : View Nat Body} {h : Handle} {i : Nat} {o : Obj}
    (hv : v.chans = w.heap.chans) (hl : (w.tables t).live h = .ok i)
    (ho : (w.tables t).objectAt i = some o) (hcap : m.cap = some (o, (w.tables t).rightsAt i))
    (htab : w'.tables = Function.update w.tables t ((w.tables t).freeSlot i))
    (hch : w'.heap.chans = (v.enqueue c s m).chans) :
    w'.contents = Relocates.moved w.contents (.slot t i)
      (.ring c s ((w.heap.chans c).dir s).q.length) := by
  funext p
  rw [Relocates.moved]
  cases p with
  | ring c' s' n =>
      rw [contents_push_ring hv hch]
      split
      · rw [hcap]
        exact (held_of_live hl ho).symm
      · rw [if_neg (by simp)]
  | slot u j =>
      rw [if_neg (by simp), contents_slot htab]
      by_cases hu : u = t
      · subst hu
        rw [if_pos rfl]
        by_cases hj : j = i
        · subst hj
          rw [if_pos rfl, held_freeSlot_self]
        · rw [if_neg (by simp [hj]), held_freeSlot_ne _ hj]
          rfl
      · rw [if_neg hu, if_neg (by simp [hu])]

/-- A send moves what the message carries from its slot to the end of the ring. -/
theorem contents_push {v : View Nat Body} {t' : CapTable Obj} (hv : v.chans = w.heap.chans)
    (hp : View.Parked (w.tables t) m.cap t') (htab : w'.tables = Function.update w.tables t t')
    (hch : w'.heap.chans = (v.enqueue c s m).chans) : Recedes w.contents w'.contents := by
  rcases hp with ⟨hnone, hsame⟩ | ⟨h, i, o, hl, ho, hcap, rfl⟩
  · rw [hsame, Function.update_eq_self] at htab
    exact .of_eq (contents_push_none hv hnone htab hch)
  · rw [contents_push_moved hv hl ho hcap htab hch]
    exact .of_relocates (.of_moved (by simp) contents_end)

/-- No channel call adds a capability. -/
theorem outcome_recedes (ht : Sound (w.tables t)) {k : Call} {r : Reply} {v' : View Nat Body}
    (ho : View.Outcome (w.proc t).view k r v') (htab : w'.tables = Function.update w.tables t v'.table)
    (hch : w'.heap.chans = v'.chans) : Recedes w.contents w'.contents := by
  have hself : ∀ {v : View Nat Body}, v.table = w.tables t →
      Function.update w.tables t v.table = w.tables :=
    fun h => by rw [h, Function.update_eq_self]
  cases ho with
  | refused =>
      refine .of_eq (funext fun p => ?_)
      cases p with
      | slot u i =>
          show (w'.tables u).held i = (w.tables u).held i
          rw [htab, hself rfl]
      | ring c' s' n => exact contents_ring hch c' s' n
  | closed c s =>
      refine .of_eq (funext fun p => ?_)
      cases p with
      | slot u i =>
          show (w'.tables u).held i = (w.tables u).held i
          rw [htab, hself rfl]
      | ring c' s' n =>
          show ((w'.heap.chans c').dir s').q[n]?.bind _ = ((w.heap.chans c').dir s').q[n]?.bind _
          rw [hch]
          dsimp only
          rw [Function.update_apply]
          split
          · next hc => rw [hc]; rfl
          · rfl
  | sent _ _ _ hp => exact contents_push rfl hp htab hch
  | received _ _ _ hq ha _ =>
      rcases ha with ⟨-, hsame⟩ | ⟨o, r, h, hcap, halloc⟩
      · exact contents_pop hq (htab.trans (hself hsame)) hch
      · exact contents_pop_attach ht hq hcap halloc htab hch
  | dropped _ _ _ hq => exact contents_pop hq (htab.trans (hself rfl)) hch

end Channel

/-! ## What one call can do -/

/-- The call narrows a handle to the object at `x`, and goes through. -/
def narrows (w : World ι) (x : Nat) : Op ι → Bool
  | .dispatch t a => Method.ofNumber a.method == some .handleNarrow &&
      ((w.proc t).dispatch w.cognitiveDeny a).1.status == .ok &&
      match (w.tables t).live a.handle with
      | .ok i => ((w.tables t).objectAt i).any fun o => o.body.addr == x
      | .error _ => false
  | _ => false

inductive Flow (w : World ι) (op : Op ι) (w' : World ι) : Prop
  | recedes : w.heap.next ≤ w'.heap.next → Recedes w.contents w'.contents → Flow w op w'
  | copies (p : Place ι Nat) (o : Obj) (r r' : Rights) : w.contents p = some (o, r) → r' ≤ r →
      r.contains Rights.DUP = true ∨ narrows w o.body.addr op = true → w.heap.next ≤ w'.heap.next →
      Gains w.contents w'.contents (o, r') → Flow w op w'
  | mints (o : Obj) (r : Rights) : o.body.addr = w.heap.next → w.heap.next < w'.heap.next →
      Gains w.contents w'.contents (o, r) → Flow w op w'

omit [DecidableEq ι] in
/-- Tables and rings are as they were. -/
theorem contents_same {w w' : World ι} (htab : w'.tables = w.tables) (hch : w'.heap.chans = w.heap.chans) :
    w'.contents = w.contents := by
  funext p
  cases p with
  | slot u i =>
      show (w'.tables u).held i = (w.tables u).held i
      rw [htab]
  | ring c s n => exact contents_ring hch c s n

omit [DecidableEq ι] in
theorem Flow.same {w w' : World ι} {op : Op ι} (htab : w'.tables = w.tables)
    (hch : w'.heap.chans = w.heap.chans) (hn : w.heap.next ≤ w'.heap.next) : Flow w op w' :=
  .recedes hn (.of_eq (contents_same htab hch))

/-- A new object, if it found a slot. -/
theorem Flow.minted {w w' : World ι} {op : Op ι} {t : ι} (ht : Sound (w.tables t)) {r : Rights} {o : Obj}
    (haddr : o.body.addr = w.heap.next)
    (htab : w'.tables = Function.update w.tables t ((w.tables t).alloc r o).2)
    (hch : w'.heap.chans = w.heap.chans) (hn : w.heap.next < w'.heap.next) : Flow w op w' := by
  rcases contents_alloc ht htab hch with ⟨-, hsame⟩ | ⟨-, hgain⟩
  · exact .recedes (Nat.le_of_lt hn) (.of_eq hsame)
  · exact .mints o r haddr hn hgain

theorem alloc_some {t : CapTable Obj} {r : Rights} {o : Obj} (h : (t.alloc r o).1 ≠ none) (r' : Rights) :
    (t.alloc r' o).1 ≠ none := by
  cases hp : t.placed with
  | none =>
      rw [alloc_of_placed_none hp] at h
      exact absurd rfl h
  | some i =>
      obtain ⟨h', t', g, ha, -⟩ := alloc_of_placed hp r' o
      rw [ha]
      exact Option.some_ne_none h'

/-- A narrowing that finds a slot answers `Ok`. -/
theorem narrow_status {p : Proc} {a : SyscallArgs} {i : Nat} {o : Obj} {r : Rights}
    (hl : p.table.live a.handle = .ok i) (ho : p.table.objectAt i = some o)
    (hsome : (p.table.alloc r o).1 ≠ none) : (p.run .handleNarrow i a).1.status = .ok := by
  rw [Proc.run, CapTable.narrow, hl]
  dsimp only
  rw [ho]
  have hsome' := alloc_some hsome ((p.table.rightsAt i).intersect (Rights.fromBits (a.a0.setWidth 32)))
  obtain ⟨h, hh⟩ := Option.ne_none_iff_exists'.mp hsome'
  dsimp only
  rw [hh]
  rfl

theorem effect_flow {w : World ι} (hs : ∀ t, Sound (w.tables t)) {t : ι} {a : SyscallArgs} {m : Method}
    {i : Nat} (hm : Method.ofNumber a.method = some m) (hl : (w.tables t).live a.handle = .ok i)
    (hright : ((w.tables t).rightsAt i).contains (requiredRight m) = true)
    (hreply : ((w.proc t).dispatch w.cognitiveDeny a).1 = ((w.proc t).run m i a).1) {p' : Proc}
    (he : Effect (w.proc t) m i p') : Flow w (.dispatch t a) (w.commit t p') := by
  have hself : Function.update w.tables t (w.tables t) = w.tables := Function.update_eq_self t w.tables
  cases he with
  | same => exact .same hself rfl (Nat.le_refl _)
  | dup o hdup ho =>
      subst hdup
      rcases contents_alloc_commit (hs t) ((w.tables t).rightsAt i) o with ⟨-, hsame⟩ | ⟨-, hgain⟩
      · exact .recedes (Nat.le_refl _) (.of_eq hsame)
      · exact .copies (.slot t i) o _ _ (held_of_live hl ho) (Rights.le_refl _) (.inl hright)
          (Nat.le_refl _) hgain
  | narrow o mask hnarrow ho =>
      subst hnarrow
      rcases contents_alloc_commit (hs t) (((w.tables t).rightsAt i).intersect mask) o with
        ⟨-, hsame⟩ | ⟨hsome, hgain⟩
      · exact .recedes (Nat.le_refl _) (.of_eq hsame)
      · refine .copies (.slot t i) o _ _ (held_of_live hl ho) (Rights.intersect_le _ mask) (.inr ?_)
          (Nat.le_refl _) hgain
        have hobj : (w.tables t).objectAt i = some o := ho
        rw [narrows, hm, hreply, narrow_status hl ho hsome, hl]
        simp [hobj]
  | vacate h hlive => exact .recedes (Nat.le_refl _) (contents_vacate rfl rfl)
  | mem cell op hop => exact .same hself rfl (Nat.le_refl _)
  | recalled cell op scalar hop => exact .minted (hs t) rfl rfl rfl (Nat.lt_succ_self _)
  | chan k =>
      exact .recedes (Nat.le_refl _) (outcome_recedes (hs t) (View.call_outcome (hs t) k) rfl rfl)
  | block cell b => exact .same hself rfl (Nat.le_refl _)

theorem dispatch_flow {w : World ι} (hs : ∀ t, Sound (w.tables t)) (t : ι) (a : SyscallArgs) :
    Flow w (.dispatch t a) (w.step (.dispatch t a)) := by
  show Flow w _ (w.commit t ((w.proc t).dispatch w.cognitiveDeny a).2)
  rcases (w.proc t).dispatch_effect w.cognitiveDeny a with hsame | ⟨m, i, hm, hl, hright, he, hreply⟩
  · rw [hsame, w.commit_proc t]
    exact .same rfl rfl (Nat.le_refl _)
  · exact effect_flow hs hm hl hright hreply he

/-- A harness call writes one substrate. -/
theorem harnessAdmit_frame (p : Proc) (home : Handle) (id : BitVec 64) (evalTbl : CapTable Obj)
    (evalHome : Handle) :
    ∃ mems, (p.harnessAdmit home id evalTbl evalHome).2 = ⟨p.table, { p.heap with mems := mems }⟩ := by
  rw [Proc.harnessAdmit]
  split
  · exact ⟨p.heap.mems, rfl⟩
  · split
    · exact ⟨p.heap.mems, rfl⟩
    · dsimp only
      rw [Proc.skillAdmitOf]
      split
      · exact ⟨p.heap.mems, rfl⟩
      · exact ⟨_, rfl⟩

theorem harnessMerge_frame (p : Proc) (home : Handle) (id : BitVec 64) (evalTbl approvalTbl : CapTable Obj)
    (evalHome approval : Handle) : ∃ mems, (p.harnessMerge home id evalTbl evalHome approvalTbl approval).2 =
      ⟨p.table, { p.heap with mems := mems }⟩ := by
  rw [Proc.harnessMerge]
  dsimp only
  split
  · exact ⟨p.heap.mems, rfl⟩
  · exact harnessAdmit_frame p home id evalTbl evalHome
  · split
    · exact harnessAdmit_frame p home id evalTbl evalHome
    · exact ⟨p.heap.mems, rfl⟩
    · exact ⟨p.heap.mems, rfl⟩

theorem harnessAdmitRotating_frame (p : Proc) (home : Handle) (id : BitVec 64) (evalTbl : CapTable Obj)
    (evalHomes : List Handle) (rotation : BitVec 64) :
    ∃ mems, (p.harnessAdmitRotating home id evalTbl evalHomes rotation).2 =
      ⟨p.table, { p.heap with mems := mems }⟩ := by
  cases evalHomes with
  | nil => exact ⟨p.heap.mems, rfl⟩
  | cons h hs => exact harnessAdmit_frame p home id evalTbl _

theorem evalSeedHeldout_frame (p : Proc) (evalHome : Handle) (target base n : BitVec 64) :
    ∃ mems, (p.evalSeedHeldout evalHome target base n).2 = ⟨p.table, { p.heap with mems := mems }⟩ := by
  rw [Proc.evalSeedHeldout]
  split
  · exact ⟨p.heap.mems, rfl⟩
  · exact ⟨_, rfl⟩

theorem frame_flow {w : World ι} {op : Op ι} {t : ι} {p' : Proc}
    (h : ∃ mems, p' = ⟨w.tables t, { w.heap with mems := mems }⟩) : Flow w op (w.commit t p') := by
  obtain ⟨mems, rfl⟩ := h
  exact .same (Function.update_eq_self t w.tables) rfl (Nat.le_refl _)

theorem createChannel_recedes (w : World ι) (bound : Nat) :
    Recedes w.contents (w.step (.createChannel bound)).contents := by
  refine .of_le fun p c hc => ?_
  cases p with
  | slot u i => exact hc
  | ring c' s n =>
      rw [← hc]
      show _ = ((Function.update w.heap.chans w.heap.next (Channel.create bound) c').dir s).q[n]?.bind _
      rw [Function.update_apply]
      split
      · next heq =>
          have hempty : (w.step (.createChannel bound)).contents (.ring c' s n) = none := by
            show ((Function.update w.heap.chans w.heap.next (Channel.create bound) c').dir s).q[n]?.bind _ = _
            rw [heq, Function.update_self]
            rfl
          exact nomatch hempty.symm.trans hc
      · rfl

/-- Every call has one of the three flows. -/
theorem step_flow {w : World ι} (hs : ∀ t, Sound (w.tables t)) (op : Op ι) : Flow w op (w.step op) := by
  cases op with
  | dispatch t a => exact dispatch_flow hs t a
  | chanCall t k =>
      exact .recedes (Nat.le_refl _) (outcome_recedes (hs t) (View.call_outcome (hs t) k) rfl rfl)
  | harnessAdmit t home id et eh => exact frame_flow (harnessAdmit_frame (w.proc t) home id _ eh)
  | harnessMerge t home id et eh at' ah => exact frame_flow (harnessMerge_frame (w.proc t) home id _ _ eh ah)
  | harnessAdmitRotating t home id et ehs rotation =>
      exact frame_flow (harnessAdmitRotating_frame (w.proc t) home id _ ehs rotation)
  | evalSeedHeldout t eh target base n => exact frame_flow (evalSeedHeldout_frame (w.proc t) eh target base n)
  | mint t rights what =>
      refine .minted (hs t) (r := rights) (o := what.object w.heap.next) ?_ rfl rfl (Nat.lt_succ_self _)
      cases what <;> rfl
  | createChannel bound => exact .recedes (Nat.le_succ _) (createChannel_recedes w bound)
  | createBlock frames => exact .same rfl rfl (Nat.le_succ _)
  | killBlock cell => exact .same rfl rfl (Nat.le_refl _)
  | setCognitiveDeny v => exact .same rfl rfl (Nat.le_refl _)
  | modelInvokeBytes t h prompt respOut => exact .same rfl rfl (Nat.le_refl _)

/-! ## Tables stay sound -/

theorem outcome_change {v v' : View Nat Body} {k : Call} {r : Reply} (h : View.Outcome v k r v') :
    Change v.table v'.table := by
  cases h with
  | refused => exact .same
  | closed => exact .same
  | sent _ _ _ hp =>
      rcases hp with ⟨-, rfl⟩ | ⟨h, i, o, hl, -, -, rfl⟩
      · exact .same
      · exact .vacate hl
  | received _ _ _ _ ha _ =>
      rcases ha with ⟨-, rfl⟩ | ⟨o, r, h, -, halloc⟩
      · exact .same
      · have hc := alloc_change v.table r o
        rw [halloc] at hc
        exact hc
  | dropped => exact .same

theorem effect_change {p p' : Proc} (ht : Sound p.table) {m : Method} {i : Nat} (he : Effect p m i p') :
    Change p.table p'.table := by
  cases he with
  | same | mem | block => exact .same
  | dup o => exact alloc_change _ _ _
  | narrow o mask => exact alloc_change _ _ _
  | vacate h hl => exact .vacate hl
  | recalled cell op scalar => exact alloc_change _ _ _
  | chan k => exact outcome_change (View.call_outcome (v := p.view) ht k)

omit [DecidableEq ι] in
theorem onProc_change {w : World ι} (hs : ∀ t, Sound (w.tables t)) {op : Op ι} {t : ι} {p' : Proc}
    (h : w.onProc op = some (t, p')) : Change (w.tables t) p'.table := by
  have hframe : ∀ {p : Proc}, (∃ mems, p = ⟨w.tables t, { w.heap with mems := mems }⟩) →
      Change (w.tables t) p.table := by
    rintro p ⟨mems, rfl⟩
    exact .same
  cases op with
  | dispatch t a =>
      cases h
      rcases (w.proc t).dispatch_effect w.cognitiveDeny a with hsame | ⟨m, i, -, -, -, he, -⟩
      · rw [hsame]
        exact .same
      · exact effect_change (hs t) he
  | chanCall t k => cases h; exact outcome_change (View.call_outcome (v := (w.proc t).view) (hs t) k)
  | harnessAdmit t home id et eh => cases h; exact hframe (harnessAdmit_frame (w.proc t) home id _ eh)
  | harnessMerge t home id et eh at' ah =>
      cases h
      exact hframe (harnessMerge_frame (w.proc t) home id _ _ eh ah)
  | harnessAdmitRotating t home id et ehs rotation =>
      cases h
      exact hframe (harnessAdmitRotating_frame (w.proc t) home id _ ehs rotation)
  | evalSeedHeldout t eh target base n =>
      cases h
      exact hframe (evalSeedHeldout_frame (w.proc t) eh target base n)
  | mint t rights what => cases h; exact alloc_change _ _ _
  | createChannel | createBlock | killBlock | setCognitiveDeny | modelInvokeBytes => cases h

theorem step_sound {w : World ι} (hs : ∀ t, Sound (w.tables t)) (op : Op ι) :
    ∀ t, Sound ((w.step op).tables t) := by
  intro u
  unfold World.step
  split
  · next t p' hp =>
      show Sound (Function.update w.tables t p'.table u)
      rw [Function.update_apply]
      split
      · exact (onProc_change hs hp).sound (hs t)
      · exact hs u
  · split <;> exact hs u

/-! ## Runs -/

/-- Sound tables, and no capability to an object that is not there yet. -/
structure Wf (w : World ι) : Prop where
  sound : ∀ t, Sound (w.tables t)
  allocated : ∀ p o r, w.contents p = some (o, r) → o.body.addr < w.heap.next

omit [DecidableEq ι] in
theorem contents_boot (cap : ι → Nat) (p : Place ι Nat) : (World.boot cap).contents p = none := by
  cases p <;> rfl

omit [DecidableEq ι] in
theorem wf_boot (cap : ι → Nat) : Wf (World.boot cap) :=
  ⟨fun t => sound_withCapacity (cap t), fun p _ _ h => nomatch (contents_boot cap p).symm.trans h⟩

theorem step_wf {w : World ι} (op : Op ι) (h : Wf w) : Wf (w.step op) := by
  refine ⟨step_sound h.sound op, fun p o r hc => ?_⟩
  cases step_flow h.sound op with
  | recedes hn hrec =>
      obtain ⟨q, hq⟩ := hrec.held hc
      exact Nat.lt_of_lt_of_le (h.allocated q o r hq) hn
  | copies q o' r₀ r' hq _ _ hn hgain =>
      rcases hgain.held hc with heq | hold
      · cases heq
        exact Nat.lt_of_lt_of_le (h.allocated q o r₀ hq) hn
      · exact Nat.lt_of_lt_of_le (h.allocated p o r hold) hn
  | mints o' r' haddr hn hgain =>
      rcases hgain.held hc with heq | hold
      · cases heq
        rw [haddr]
        exact hn
      · exact Nat.lt_trans (h.allocated p o r hold) hn

/-- The places of the capabilities to the object at `x`. -/
def capsTo (w : World ι) (x : Nat) : Set (Place ι Nat) := holding w.contents fun c => c.1.body.addr = x

/-- No capability to the object at `x` carries `DUP`. -/
def Undup (w : World ι) (x : Nat) : Prop :=
  ∀ p o r, w.contents p = some (o, r) → o.body.addr = x → r.contains Rights.DUP = false

omit [DecidableEq ι] in
/-- One call adds a capability to the object only by a narrowing, and none with `DUP`. -/
theorem flow_confined {w w' : World ι} {op : Op ι} (hf : Flow w op w') {x : Nat} (hx : x < w.heap.next)
    (hd : Undup w x) : x < w'.heap.next ∧ Undup w' x ∧
      (capsTo w' x).encard ≤ (capsTo w x).encard + if narrows w x op then 1 else 0 := by
  cases hf with
  | recedes hn hrec =>
      refine ⟨Nat.lt_of_lt_of_le hx hn, fun p o r hc haddr => ?_, (hrec.encard_le _).trans le_self_add⟩
      obtain ⟨q, hq⟩ := hrec.held hc
      exact hd q o r hq haddr
  | copies q o r r' hq hle hwhy hn hgain =>
      refine ⟨Nat.lt_of_lt_of_le hx hn, fun p o' s hc haddr => ?_, ?_⟩
      · rcases hgain.held hc with heq | hold
        · cases heq
          refine Bool.eq_false_iff.mpr fun hdup => ?_
          have := hd q o r hq haddr
          rw [Rights.contains_mono hle hdup] at this
          cases this
        · exact hd p o' s hold haddr
      · by_cases haddr : o.body.addr = x
        · have hnarrow : narrows w x op = true := by
            rcases hwhy with hdup | hnarrow
            · exact nomatch hdup.symm.trans (hd q o r hq haddr)
            · rwa [haddr] at hnarrow
          rw [if_pos hnarrow]
          exact hgain.encard_le _
        · exact (hgain.encard_le_of_not (Q := fun c => c.1.body.addr = x) haddr).trans le_self_add
  | mints o r haddr hn hgain =>
      have hne : o.body.addr ≠ x := fun heq => Nat.lt_irrefl x (heq.symm.trans haddr ▸ hx)
      refine ⟨Nat.lt_trans hx hn, fun p o' s hc haddr' => ?_, ?_⟩
      · rcases hgain.held hc with heq | hold
        · cases heq
          exact absurd haddr' hne
        · exact hd p o' s hold haddr'
      · exact (hgain.encard_le_of_not (Q := fun c => c.1.body.addr = x) hne).trans le_self_add

/-- The narrowings of handles to the object along a run. -/
def narrowings (x : Nat) : World ι → List (Op ι) → Nat
  | _, [] => 0
  | w, op :: ops => (if narrows w x op then 1 else 0) + narrowings x (w.step op) ops

theorem run_confined (ops : List (Op ι)) {w : World ι} (hw : Wf w) {x : Nat} (hx : x < w.heap.next)
    (hd : Undup w x) : Undup (exec World.step w ops) x ∧
      (capsTo (exec World.step w ops) x).encard ≤ (capsTo w x).encard + narrowings x w ops := by
  induction ops generalizing w with
  | nil => exact ⟨hd, le_self_add⟩
  | cons op ops ih =>
      obtain ⟨hx', hd', hstep⟩ := flow_confined (step_flow hw.sound op) hx hd
      obtain ⟨hend, hrun⟩ := ih (step_wf op hw) hx' hd'
      refine ⟨hend, hrun.trans ?_⟩
      rw [narrowings, Nat.cast_add, ← add_assoc]
      refine add_le_add_left (hstep.trans_eq ?_) _
      split <;> rfl

omit [DecidableEq ι] in
theorem flow_encard_le {w w' : World ι} {op : Op ι} (hf : Flow w op w') (x : Nat) :
    (capsTo w' x).encard ≤ (capsTo w x).encard + 1 := by
  cases hf with
  | recedes hn hrec => exact (hrec.encard_le _).trans le_self_add
  | copies q o r r' hq hle hwhy hn hgain => exact hgain.encard_le _
  | mints o r haddr hn hgain => exact hgain.encard_le _

/-- From boot there are finitely many: one more a call at most. -/
theorem capsTo_finite (cap : ι → Nat) (ops : List (Op ι)) (x : Nat) :
    (capsTo (exec World.step (World.boot cap) ops) x).Finite := by
  refine (exec_inv (P := fun w : World ι => Wf w ∧ (capsTo w x).Finite) ?_ ops ⟨wf_boot cap, ?_⟩).2
  · intro w op h
    refine ⟨step_wf op h.1, Set.encard_lt_top_iff.mp ?_⟩
    refine (flow_encard_le (step_flow h.1.sound op) x).trans_lt ?_
    exact ENat.add_lt_top.mpr ⟨Set.encard_lt_top_iff.mpr h.2, ENat.natCast_lt_top 1⟩
  · refine Set.finite_empty.subset ?_
    rintro p ⟨c, hc, -⟩
    exact nomatch (contents_boot cap p).symm.trans hc

/-- The live handles to the object at `x`. -/
def liveTo (w : World ι) (x : Nat) : Set (Place ι Nat) := {p ∈ capsTo w x | ∃ t i, p = .slot t i}

/-- The capabilities to the object at `x` parked in rings. -/
def parkedTo (w : World ι) (x : Nat) : Set (Place ι Nat) := {p ∈ capsTo w x | ∃ c s n, p = .ring c s n}

omit [DecidableEq ι] in
theorem encard_capsTo (w : World ι) (x : Nat) :
    (capsTo w x).encard = (liveTo w x).encard + (parkedTo w x).encard := by
  rw [← Set.encard_union_eq]
  · congr 1
    ext p
    constructor
    · intro hp
      cases p with
      | slot t i => exact .inl ⟨hp, t, i, rfl⟩
      | ring c s n => exact .inr ⟨hp, c, s, n, rfl⟩
    · rintro (hp | hp) <;> exact hp.1
  · refine Set.disjoint_left.mpr ?_
    rintro p ⟨-, t, i, rfl⟩ ⟨-, c, s, n, h⟩
    cases h

/-- Where no capability to an object carries `DUP`, none ever will, and the live handles
to it and the capabilities parked in rings are, all together, never more than they were
and one for each narrowing. -/
theorem undup_confined (cap : ι → Nat) (pre post : List (Op ι)) (x : Nat)
    (hx : x < (exec World.step (World.boot cap) pre).heap.next)
    (hd : Undup (exec World.step (World.boot cap) pre) x) :
    Undup (exec World.step (World.boot cap) (pre ++ post)) x ∧
      (liveTo (exec World.step (World.boot cap) pre) x).Finite ∧
      (parkedTo (exec World.step (World.boot cap) pre) x).Finite ∧
      (liveTo (exec World.step (World.boot cap) (pre ++ post)) x).encard +
          (parkedTo (exec World.step (World.boot cap) (pre ++ post)) x).encard ≤
        (liveTo (exec World.step (World.boot cap) pre) x).encard +
          (parkedTo (exec World.step (World.boot cap) pre) x).encard +
          narrowings x (exec World.step (World.boot cap) pre) post := by
  have hw : Wf (exec World.step (World.boot cap) pre) :=
    exec_inv (fun _ op h => step_wf op h) pre (wf_boot cap)
  have hfin := capsTo_finite cap pre x
  obtain ⟨hend, hbound⟩ := run_confined post hw hx hd
  rw [exec_append, ← encard_capsTo, ← encard_capsTo]
  exact ⟨hend, hfin.subset (Set.sep_subset _ _), hfin.subset (Set.sep_subset _ _), hbound⟩

/-- One object, behind a handle that can only read. -/
def mintReader : List (Op Unit) := [.mint () Rights.READ (.identity .generic)]

def narrowReader : Op Unit := .dispatch () ⟨2, Handle.new 1 0, 1, 0, 0, 0⟩

theorem mintReader_contents {p : Place Unit Nat} {c : Obj × Rights}
    (h : (exec World.step (World.boot fun _ => 4) mintReader).contents p = some c) :
    p = .slot () 0 ∧ c.2 = Rights.READ := by
  cases p with
  | ring c s n => cases h
  | slot t i =>
      cases i with
      | zero => cases h; exact ⟨rfl, rfl⟩
      | succ i => cases h

theorem mintReader_undup : Undup (exec World.step (World.boot fun _ => 4) mintReader) 0 := by
  intro p o r h _
  obtain ⟨-, rfl : r = Rights.READ⟩ := mintReader_contents h
  decide

theorem reader_narrowed_once :
    Undup (exec World.step (World.boot fun _ => 4) (mintReader ++ [narrowReader])) 0 ∧
      narrowings 0 (exec World.step (World.boot fun _ => 4) mintReader) [narrowReader] = 1 :=
  ⟨(undup_confined (fun _ => 4) mintReader [narrowReader] 0 (by decide) mintReader_undup).1,
    by decide⟩

/-- If no live handle to the object carries `DUP`, the run ends with no more of them than
it started with. -/
def LiveConfined (w : World ι) (x : Nat) (ops : List (Op ι)) : Prop :=
  (∀ p ∈ liveTo w x, ∀ o r, w.contents p = some (o, r) → r.contains Rights.DUP = false) →
    (liveTo (exec World.step w ops) x).encard ≤ (liveTo w x).encard

/-- A channel, both ends in one table, and a capability parked in it. -/
def parkReader : List (Op Unit) :=
  [.createChannel 1,
   .mint () Rights.WRITE (.endpoint 0 .zero),
   .mint () Rights.READ (.endpoint 0 .one),
   .mint () (Rights.READ.union Rights.TRANSFER) (.identity .generic),
   .dispatch () ⟨25, Handle.new 1 0, 0, (Handle.new 1 2).raw, 0, 0⟩]

def receiveReader : Op Unit := .dispatch () ⟨26, Handle.new 1 1, 0, 0, 0, 0⟩

omit [DecidableEq ι] in
theorem mem_liveTo {w : World ι} {t : ι} {i x : Nat}
    (h : ((w.tables t).held i).any (fun c => c.1.body.addr == x) = true) : .slot t i ∈ liveTo w x := by
  obtain ⟨c, hc, haddr⟩ := (Option.any_eq_true _ _).mp h
  exact ⟨⟨c, hc, beq_iff_eq.mp haddr⟩, t, i, rfl⟩

theorem parkReader_liveTo : liveTo (exec World.step (World.boot fun _ => 4) parkReader) 3 = ∅ := by
  refine Set.eq_empty_of_forall_notMem ?_
  rintro p ⟨⟨c, hc, haddr⟩, t, i, rfl⟩
  match i with
  | 0 => cases hc; cases haddr
  | 1 => cases hc; cases haddr
  | 2 => cases hc
  | i + 3 => cases hc

/-- Two ways to hold more: a narrowing adds a handle beside the one it weakens, and a
receive brings back a capability that was parked. -/
theorem live_handles_grow :
    ¬ LiveConfined (exec World.step (World.boot fun _ => 4) mintReader) 0 [narrowReader] ∧
      ¬ LiveConfined (exec World.step (World.boot fun _ => 4) parkReader) 3 [receiveReader] := by
  constructor
  · intro h
    have hle := h fun p hp o r hc => mintReader_undup p o r hc <| by
      obtain ⟨⟨c, hc', haddr⟩, -⟩ := hp
      cases hc'.symm.trans hc
      exact haddr
    have hone : (liveTo (exec World.step (World.boot fun _ => 4) mintReader) 0).encard ≤ 1 := by
      refine Set.encard_le_one_iff.mpr ?_
      rintro p q ⟨⟨c, hc, -⟩, -⟩ ⟨⟨d, hd, -⟩, -⟩
      rw [(mintReader_contents hc).1, (mintReader_contents hd).1]
    have heq := Set.encard_le_one_iff.mp (hle.trans hone) _ _
      (mem_liveTo (t := ()) (i := 0) (by decide)) (mem_liveTo (t := ()) (i := 1) (by decide))
    cases heq
  · intro h
    have hle := h fun p hp => by
      rw [parkReader_liveTo] at hp
      exact absurd hp (Set.notMem_empty p)
    rw [parkReader_liveTo, Set.encard_empty, nonpos_iff_eq_zero, Set.encard_eq_zero] at hle
    have hmem : Place.slot () 2 ∈
        liveTo (exec World.step (World.boot fun _ => 4) (parkReader ++ [receiveReader])) 3 :=
      mem_liveTo (by decide)
    rw [exec_append, hle] at hmem
    exact hmem

end Yuva.Kernel
