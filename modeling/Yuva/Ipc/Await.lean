/-
# `Yuva.Ipc.Await` — a call seen by those who wait

What a blocking receiver needs to know of the channel calls.  `Effect` says what a call does
to the channels and whom it wakes:

    kept      nothing, nobody
    sent      a message joins a ring; the waiter of the ring
    popped    a message leaves a ring; nobody
    shut      a side closes; nobody

`waitsOn` is the ring a receive finds empty and open, which is when it answers `WouldBlock`.
A receiver keeps its handle over the wait, and `Denotes` is what the handle keeps: the
endpoint it was resolved to, until it is dead.
-/
import Yuva.Ipc.Final

namespace Yuva.Caps.CapTable

variable {O : Type*}

/-- A change of the table leaves what a handle resolves to as it was, or kills the handle. -/
theorem Change.keeps_or_kills {t t' : CapTable O} (hc : Change t t') (ht : Sound t) {h : Handle} {i : Nat}
    (hl : t.live h = .ok i) : (t'.live h = .ok i ∧ t'.objectAt i = t.objectAt i) ∨ Dead t' h := by
  have hnf := live_not_free ht hl
  have keep : t'.slots[i]? = t.slots[i]? → t'.live h = .ok i ∧ t'.objectAt i = t.objectAt i := by
    intro hsame
    obtain ⟨hi, s, hs, hobj, hgen⟩ := live_ok.mp hl
    exact ⟨live_ok.mpr ⟨hi, s, hsame.trans hs, hobj, hgen⟩, by rw [objectAt, objectAt, hsame]⟩
  obtain ⟨rfl, s, hs, -, -⟩ := live_ok.mp hl
  cases hc with
  | same => exact .inl (keep rfl)
  | @reuse idx rest u r o hfree hu =>
      have hne : idx.toNat ≠ h.slot.toNat := by
        intro he
        refine hnf ?_
        rw [hfree, ← BitVec.eq_of_toNat_eq he]
        exact List.mem_cons_self
      exact .inl (keep (List.getElem?_set_ne hne))
  | fresh r o hfree hlen =>
      exact .inl (keep (List.getElem?_append_left (List.getElem?_eq_some_iff.mp hs).1))
  | @vacate h' i' hl' =>
      by_cases he : h.slot.toNat = i'
      · subst he
        exact .inr (dead_of_freeSlot ht hl)
      · exact .inl (keep ((freeSlot_slots t i').2 _ he))

end Yuva.Caps.CapTable

namespace Yuva.Ipc.View

open Yuva.Caps CapTable

variable {κ β : Type*}

/-- `chan_of`: the endpoint behind a handle, no right asked for. -/
def chanOf (v : View κ β) (ep : Handle) : Option (κ × Side) :=
  match v.table.live ep with
  | .error _ => none
  | .ok i => (v.table.objectAt i).bind (·.chan)

/-- The receiver an accepted send takes from its outbox ring. -/
def woken [DecidableEq κ] (v : View κ β) (k : Call) : Option (BitVec 32) :=
  if (v.call k).1.status = .ok then (v.sendsOn k).bind fun p => ((v.chans p.1).takeWaiter p.2).1
  else none

/-- The ring a receive finds empty and open, if it finds it so. -/
def waitsOn (v : View κ β) (ep : Handle) : Option (κ × Side) :=
  match v.endpoint ep Rights.READ with
  | .error _ => none
  | .ok (c, side) =>
      if ((v.chans c).inbox side).q.isEmpty && (v.chans c).peerOpen side then some (c, side.peer) else none

/-! ## What a call does, and whom it wakes -/

inductive Effect [DecidableEq κ] (v : View κ β) (k : Call) : Option (BitVec 32) → View κ β → Prop
  | kept : Effect v k none v
  | sent {c : κ} {s : Side} (m : Message (Object κ β)) {t' : CapTable (Object κ β)} :
      v.sendsOn k = some (c, s) → Change v.table t' →
      Effect v k ((v.chans c).takeWaiter s).1 ⟨t', (v.enqueue c s m).chans⟩
  | popped {c : κ} {s : Side} {m : Message (Object κ β)} {rest : List (Message (Object κ β))}
      {t' : CapTable (Object κ β)} : ((v.chans c).dir s).q = m :: rest → Change v.table t' →
      Effect v k none ⟨t', Function.update v.chans c ((v.chans c).setQueue s rest)⟩
  | shut {ep : Handle} {c : κ} {s : Side} : k = .close ep → v.endpoint ep Rights.NONE = .ok (c, s) →
      Effect v k none { v with chans := Function.update v.chans c ((v.chans c).closeSide s) }

section Effects

variable [DecidableEq κ] {v : View κ β}

omit [DecidableEq κ] in
/-- Nothing is at the head of a ring that a handle does not name or that is empty. -/
theorem empty_of_head {ep : Handle} (h : v.head ep = none) : (∃ e, v.endpoint ep Rights.READ = .error e) ∨
    ∃ c s, v.endpoint ep Rights.READ = .ok (c, s) ∧ ((v.chans c).inbox s).q = [] := by
  rw [head] at h
  split at h
  · next c s he =>
      rw [Option.map_eq_none_iff, List.head?_eq_none_iff] at h
      exact .inr ⟨c, s, he, h⟩
  · next he => exact .inl ⟨_, he⟩

/-- A call answered `Ok` that is no close sends or receives something. -/
theorem moves_of_ok {k : Call} (hk : ∀ ep, k ≠ .close ep) (hok : (v.call k).1.status = .ok) :
    v.sending k ≠ none ∨ v.receiving k ≠ none := by
  cases k with
  | close ep => exact absurd rfl (hk ep)
  | send ep payload capRaw =>
      refine .inl fun hnone => ?_
      rw [call, chanSend] at hok
      cases he : v.endpoint ep Rights.WRITE with
      | error e =>
          rw [he] at hok
          exact endpoint_error_ne_ok he hok
      | ok cs =>
          rw [sending, he] at hnone
          cases hnone
  | sendBytes ep payload capRaw len user =>
      refine .inl fun hnone => ?_
      rw [call, chanSendBytes] at hok
      cases he : v.endpoint ep Rights.WRITE with
      | error e =>
          rw [he] at hok
          exact endpoint_error_ne_ok he hok
      | ok cs =>
          rw [sending, he] at hnone
          cases hnone
  | recv ep =>
      refine .inr fun hnone => ?_
      rw [call, chanRecv] at hok
      rcases empty_of_head hnone with ⟨e, he⟩ | ⟨c, s, he, hq⟩
      · rw [he] at hok
        exact endpoint_error_ne_ok he hok
      · rw [he] at hok
        dsimp only at hok
        rw [hq] at hok
        exact emptyReply_ne_ok v c s hok
  | recvBytes ep dstCap user =>
      refine .inr fun hnone => ?_
      rw [call, chanRecvBytes] at hok
      rcases empty_of_head hnone with ⟨e, he⟩ | ⟨c, s, he, hq⟩
      · rw [he] at hok
        exact endpoint_error_ne_ok he hok
      · rw [he] at hok
        dsimp only at hok
        rw [hq] at hok
        exact emptyReply_ne_ok v c s hok

omit [DecidableEq κ] in
theorem sendsOn_of_sending {k : Call} {c : κ} {s : Side} {m : Message (Object κ β)}
    (h : v.sending k = some (c, s, m)) : v.sendsOn k = some (c, s) := by
  cases k with
  | recv | recvBytes | close => cases h
  | send ep payload capRaw =>
      rw [sending] at h
      split at h
      · next he =>
          cases h
          rw [sendsOn, he]
          rfl
      · cases h
  | sendBytes ep payload capRaw len user =>
      rw [sending] at h
      split at h
      · next he =>
          cases h
          rw [sendsOn, he]
          rfl
      · cases h

omit [DecidableEq κ] in
/-- A receive wakes nobody. -/
theorem sendsOn_of_receiving {k : Call} {x : κ × Side × Message (Object κ β)}
    (h : v.receiving k = some x) : v.sendsOn k = none := by
  cases k with
  | send | sendBytes | close => cases h
  | recv | recvBytes => rfl

theorem call_effect (hv : Sound v.table) (k : Call) : Effect v k (v.woken k) (v.call k).2 := by
  have hout := call_outcome hv k
  rw [woken]
  cases hk : k with
  | close ep =>
      have hnone : (if (v.call (.close ep)).1.status = .ok then
          (v.sendsOn (.close ep)).bind fun p => ((v.chans p.1).takeWaiter p.2).1 else none) = none := by
        split <;> rfl
      rw [hnone, call, chanClose]
      cases he : v.endpoint ep Rights.NONE with
      | error e => exact .kept
      | ok cs => exact .shut rfl he
  | _ =>
      rw [← hk]
      have hne : ∀ ep, k ≠ .close ep := by
        intro ep he
        rw [hk] at he
        cases he
      generalize hr : v.call k = r at hout
      obtain ⟨reply, v'⟩ := r
      cases hout with
      | refused hstatus =>
          rw [if_neg hstatus]
          exact .kept
      | closed c s hok hs hr' =>
          refine absurd (moves_of_ok (v := v) hne (by rw [hr]; exact hok)) ?_
          rintro (h | h)
          · exact h hs
          · exact h (receiving_eq_none hr')
      | sent hok hs hr' hp =>
          rw [if_pos hok, sendsOn_of_sending hs]
          exact .sent _ (sendsOn_of_sending hs) (Traced.parked_change hp)
      | received hok hr' hs hq ha =>
          rw [if_pos hok, sendsOn_of_receiving hr']
          exact .popped hq (Traced.attached_change ha)
      | dropped hfull hr' hd hq =>
          rw [if_neg (by rw [hfull]; decide)]
          exact .popped hq .same

/-! ## An empty inbox -/

omit [DecidableEq κ] in
theorem endpoint_ne_wouldBlock {ep : Handle} {need : Rights} : v.endpoint ep need ≠ .error .wouldBlock := by
  intro he
  rw [endpoint] at he
  split at he
  · next e hl =>
      cases he
      rw [live] at hl
      split at hl
      · cases hl
      · split at hl
        · cases hl
        · split at hl <;> cases hl
  · split at he
    · cases he
    · split at he
      · cases he
      · split at he <;> cases he

omit [DecidableEq κ] in
theorem waitsOn_eq_some {ep : Handle} {p : κ × Side} :
    v.waitsOn ep = some p ↔ ∃ c side, v.endpoint ep Rights.READ = .ok (c, side) ∧ p = (c, side.peer) ∧
      ((v.chans c).inbox side).q = [] ∧ (v.chans c).peerOpen side = true := by
  rw [waitsOn]
  constructor
  · intro h
    split at h
    · cases h
    · next c side he =>
        split at h
        · next hboth =>
            rw [Bool.and_eq_true, List.isEmpty_iff] at hboth
            exact ⟨c, side, he, (Option.some.inj h).symm, hboth⟩
        · cases h
  · rintro ⟨c, side, he, rfl, hq, hopen⟩
    rw [he]
    dsimp only
    rw [if_pos]
    rw [Bool.and_eq_true, List.isEmpty_iff]
    exact ⟨hq, hopen⟩

/-- A receive answers `WouldBlock` exactly when it finds its inbox empty and open, and then it
did nothing. -/
theorem chanRecv_wouldBlock {ep : Handle} {p : κ × Side} (h : v.waitsOn ep = some p) :
    v.chanRecv ep = (.err .wouldBlock, v) := by
  obtain ⟨c, side, he, -, hq, hopen⟩ := waitsOn_eq_some.mp h
  rw [chanRecv, he]
  dsimp only
  rw [hq]
  dsimp only
  rw [emptyReply, if_pos hopen]

theorem chanRecv_ne_wouldBlock {ep : Handle} (h : v.waitsOn ep = none) :
    (v.chanRecv ep).1.status ≠ .wouldBlock := by
  intro hstatus
  rw [chanRecv] at hstatus
  cases he : v.endpoint ep Rights.READ with
  | error e =>
      rw [he] at hstatus
      have hwb : e = .wouldBlock := hstatus
      rw [hwb] at he
      exact endpoint_ne_wouldBlock he
  | ok cs =>
      obtain ⟨c, side⟩ := cs
      rw [he] at hstatus
      dsimp only at hstatus
      cases hq : ((v.chans c).inbox side).q with
      | nil =>
          rw [hq] at hstatus
          dsimp only [emptyReply] at hstatus
          split at hstatus
          · next hopen =>
              rw [waitsOn_eq_some.mpr ⟨c, side, he, rfl, hq, hopen⟩] at h
              cases h
          · cases hstatus
      | cons m rest =>
          rw [hq] at hstatus
          dsimp only [popAndAttach] at hstatus
          split at hstatus
          · cases hstatus
          · split at hstatus <;> cases hstatus

end Effects

/-! ## The endpoint a handle keeps -/

/-- The handle is dead, or it is a handle of that endpoint. -/
def Denotes (t : CapTable (Object κ β)) (ep : Handle) (cs : κ × Side) : Prop :=
  Dead t ep ∨ ∃ i o, t.live ep = .ok i ∧ t.objectAt i = some o ∧ o.chan = some cs

theorem denotes_of_chanOf {v : View κ β} {ep : Handle} {cs : κ × Side} (h : v.chanOf ep = some cs) :
    Denotes v.table ep cs := by
  rw [chanOf] at h
  split at h
  · cases h
  · next i hl =>
      obtain ⟨o, ho, hcs⟩ := Option.bind_eq_some_iff.mp h
      exact .inr ⟨i, o, hl, ho, hcs⟩

theorem chanOf_of_endpoint {v : View κ β} {ep : Handle} {need : Rights} {cs : κ × Side}
    (h : v.endpoint ep need = .ok cs) : v.chanOf ep = some cs := by
  rw [endpoint] at h
  rw [chanOf]
  cases hl : v.table.live ep with
  | error e =>
      rw [hl] at h
      cases h
  | ok i =>
      rw [hl] at h
      dsimp only at h ⊢
      split at h
      · cases h
      · cases ho : v.table.objectAt i with
        | none =>
            rw [ho] at h
            cases h
        | some o =>
            rw [ho] at h
            rw [Option.bind_some]
            dsimp only at h
            cases hcs : o.chan with
            | none =>
                rw [hcs] at h
                cases h
            | some cs' =>
                rw [hcs] at h
                cases h
                rfl

theorem Denotes.change {t t' : CapTable (Object κ β)} {ep : Handle} {cs : κ × Side} (h : Denotes t ep cs)
    (ht : Sound t) (hc : Change t t') : Denotes t' ep cs := by
  rcases h with hd | ⟨i, o, hl, ho, hcs⟩
  · exact .inl (hc.stays_dead hd)
  · rcases hc.keeps_or_kills ht hl with ⟨hl', ho'⟩ | hd
    · exact .inr ⟨i, o, hl', ho'.trans ho, hcs⟩
    · exact .inl hd

theorem Denotes.endpoint {v : View κ β} {ep : Handle} {need : Rights} {cs cs' : κ × Side}
    (h : Denotes v.table ep cs) (he : v.endpoint ep need = .ok cs') : cs' = cs := by
  rw [View.endpoint] at he
  split at he
  · cases he
  · next j hl =>
      rcases h with hd | ⟨i, o, hl', ho, hcs⟩
      · exact absurd hl (hd.not_live j)
      · rw [hl] at hl'
        cases hl'
        split at he
        · cases he
        · rw [ho] at he
          dsimp only at he
          rw [hcs] at he
          exact (Except.ok.inj he).symm

end Yuva.Ipc.View
