/-
# `Yuva.Ipc.Final` — when the end of a stream is the end

A receiver is told `PeerClosed` when its inbox is empty and the other side has closed.
What a call does to the channel cores is said once, without regard to the tables:

    kept      nothing
    pushed    a send, its peer open and its ring with room
    popped    a receive, delivered or lost
    shut      a close

`Ended c s` is the state in which a receive at side `s` is told `PeerClosed`.  Closing is
for good and receives only drain, so one thing alone leaves it: a send by a side that has
closed, through a handle it kept.  `M_CHAN_SEND` asks whether the peer is open and never
whether its own side is.
-/
import Yuva.Ipc.Conserve

namespace Yuva.Ipc

open Yuva.Caps CapTable Yuva.Run

variable {ι κ β : Type*} [DecidableEq ι] [DecidableEq κ]

namespace View

/-! ## What a call does to the channels -/

/-- The endpoint a send writes to. -/
def sendsOn (v : View κ β) : Call → Option (κ × Side)
  | .send ep _ _ | .sendBytes ep _ _ _ _ => (v.endpoint ep Rights.WRITE).toOption
  | _ => none

/-- The endpoint a receive reads from. -/
def receivesOn (v : View κ β) : Call → Option (κ × Side)
  | .recv ep | .recvBytes ep _ _ => (v.endpoint ep Rights.READ).toOption
  | _ => none

inductive Stirs (v : View κ β) (k : Call) : (κ → Channel (Object κ β)) → Prop
  | kept : Stirs v k v.chans
  | pushed (c : κ) (s : Side) (m : Message (Object κ β)) : v.sendsOn k = some (c, s) →
      (v.chans c).peerOpen s = true → ((v.chans c).outbox s).q.length < ((v.chans c).outbox s).cap →
      Stirs v k (v.enqueue c s m).chans
  | popped (c : κ) (s : Side) (m : Message (Object κ β)) (rest : List (Message (Object κ β))) :
      ((v.chans c).inbox s).q = m :: rest →
      Stirs v k (Function.update v.chans c ((v.chans c).setQueue s.peer rest))
  | shut (c : κ) (s : Side) : Stirs v k (Function.update v.chans c ((v.chans c).closeSide s))

theorem parkAndEnqueue_stirs {v : View κ β} {k : Call} {c : κ} {s : Side} (hk : v.sendsOn k = some (c, s))
    (hopen : ¬ (!(v.chans c).peerOpen s) = true)
    (hroom : ¬ ((v.chans c).outbox s).q.length ≥ ((v.chans c).outbox s).cap)
    (payload capRaw : BitVec 64) (bytes : Option (List UInt8)) :
    Stirs v k (v.parkAndEnqueue c s payload capRaw bytes).2.chans := by
  rw [parkAndEnqueue]
  split
  · exact .kept
  · next cap t hp =>
      exact .pushed c s ⟨payload, bytes, cap⟩ hk (by simpa using hopen) (Nat.not_le.mp hroom)

theorem popAndAttach_stirs {v : View κ β} {k : Call} {c : κ} {s : Side} {m : Message (Object κ β)}
    {rest : List (Message (Object κ β))} (hq : ((v.chans c).inbox s).q = m :: rest) (len : Nat)
    (copied : List UInt8) : Stirs v k (v.popAndAttach c s m rest len copied).2.chans := by
  rw [popAndAttach]
  split
  · exact .popped c s m rest hq
  · split <;> exact .popped c s m rest hq

theorem chanSend_stirs (v : View κ β) (ep : Handle) (payload capRaw : BitVec 64) :
    Stirs v (.send ep payload capRaw) (v.chanSend ep payload capRaw).2.chans := by
  rw [chanSend]
  split
  · exact .kept
  · next c s he =>
      have hk : v.sendsOn (.send ep payload capRaw) = some (c, s) := by rw [sendsOn, he]; rfl
      split
      · exact .kept
      · next hopen =>
          split
          · exact .kept
          · next hroom => exact parkAndEnqueue_stirs hk hopen hroom payload capRaw none

theorem chanSendBytes_stirs (v : View κ β) (ep : Handle) (payload capRaw : BitVec 64) (len : Nat)
    (user : Uaccess) :
    Stirs v (.sendBytes ep payload capRaw len user) (v.chanSendBytes ep payload capRaw len user).2.chans := by
  rw [chanSendBytes]
  split
  · exact .kept
  · next c s he =>
      have hk : v.sendsOn (.sendBytes ep payload capRaw len user) = some (c, s) := by
        rw [sendsOn, he]
        rfl
      split
      · exact .kept
      · next hopen =>
          split
          · exact .kept
          · next hroom =>
              split
              · exact .kept
              · split
                · exact .kept
                · exact parkAndEnqueue_stirs hk hopen hroom payload capRaw _

theorem chanRecv_stirs (v : View κ β) (ep : Handle) : Stirs v (.recv ep) (v.chanRecv ep).2.chans := by
  rw [chanRecv]
  split
  · exact .kept
  · split
    · exact .kept
    · next hq => exact popAndAttach_stirs hq 0 []

theorem chanRecvBytes_stirs (v : View κ β) (ep : Handle) (dstCap : Nat) (user : Uaccess) :
    Stirs v (.recvBytes ep dstCap user) (v.chanRecvBytes ep dstCap user).2.chans := by
  rw [chanRecvBytes]
  split
  · exact .kept
  · next c s he =>
      split
      · exact .kept
      · next m rest hq =>
          split
          · exact .kept
          · split
            · exact popAndAttach_stirs hq _ _
            · split
              · -- pushed back to the front: the ring is as it was
                dsimp only
                rw [setQueue_self hq, Function.update_eq_self]
                exact .kept
              · exact popAndAttach_stirs hq _ _

theorem chanClose_stirs (v : View κ β) (ep : Handle) : Stirs v (.close ep) (v.chanClose ep).2.chans := by
  rw [chanClose]
  split
  · exact .kept
  · exact .shut _ _

theorem call_stirs (v : View κ β) (k : Call) : Stirs v k (v.call k).2.chans := by
  cases k with
  | send ep payload capRaw => exact chanSend_stirs v ep payload capRaw
  | sendBytes ep payload capRaw len user => exact chanSendBytes_stirs v ep payload capRaw len user
  | recv ep => exact chanRecv_stirs v ep
  | recvBytes ep dstCap user => exact chanRecvBytes_stirs v ep dstCap user
  | close ep => exact chanClose_stirs v ep

end View

/-! ## The end of a stream -/

/-- Side `s` has drained its inbox, and the other side has closed. -/
def Ended (chans : κ → Channel (Object κ β)) (c : κ) (s : Side) : Prop :=
  (chans c).isOpen s.peer = false ∧ ((chans c).dir s.peer).q = []

theorem update_isOpen (chans : κ → Channel (Object κ β)) (c : κ) {ch : Channel (Object κ β)}
    (hsame : ch.isOpen = (chans c).isOpen) (c' : κ) :
    (Function.update chans c ch c').isOpen = (chans c').isOpen := by
  rw [Function.update_apply]
  split
  · next hc => rw [hc]; exact hsame
  · rfl

theorem closeSide_isOpen (chans : κ → Channel (Object κ β)) (c : κ) (s : Side) {c' : κ} {s' : Side}
    (h : (chans c').isOpen s' = false) :
    (Function.update chans c ((chans c).closeSide s) c').isOpen s' = false := by
  rw [Function.update_apply]
  split
  · next hc =>
      subst hc
      show Function.update (chans c').isOpen s false s' = false
      rw [Function.update_apply]
      split
      · rfl
      · exact h
  · exact h

namespace View

/-- A send on an endpoint whose own side has closed and whose outbox is drained; nothing
refuses it, the other side being open and the ring having room. -/
def Late (v : View κ β) (k : Call) : Prop :=
  ∃ c s, v.sendsOn k = some (c, s) ∧ (v.chans c).isOpen s = false ∧ ((v.chans c).outbox s).q = [] ∧
    (v.chans c).peerOpen s = true ∧ 0 < ((v.chans c).outbox s).cap

/-- Only a late send leaves the end. -/
theorem stirs_ended {v : View κ β} {k : Call} {chans : κ → Channel (Object κ β)} (h : Stirs v k chans)
    (hk : ¬ v.Late k) {c : κ} {s : Side} (he : Ended v.chans c s) : Ended chans c s := by
  obtain ⟨hclosed, hempty⟩ := he
  cases h with
  | kept => exact ⟨hclosed, hempty⟩
  | pushed c' s' m hsend hopen hroom =>
      refine ⟨?_, ?_⟩
      · show (Function.update v.chans c' _ c).isOpen s.peer = false
        rw [update_isOpen v.chans c' (by rfl)]
        exact hclosed
      · rw [Traced.enqueue_q]
        split
        · next heq =>
            obtain ⟨rfl, rfl⟩ := heq
            refine absurd ⟨c, s.peer, hsend, hclosed, hempty, hopen, ?_⟩ hk
            exact Nat.lt_of_le_of_lt (Nat.zero_le _) hroom
        · exact hempty
  | popped c' s' m rest hq =>
      refine ⟨?_, ?_⟩
      · rw [update_isOpen v.chans c' (by rfl)]
        exact hclosed
      · rw [Traced.pop_q]
        split
        · next heq =>
            obtain ⟨rfl, hpeer⟩ := heq
            rw [hpeer] at hempty
            exact nomatch hq.symm.trans hempty
        · exact hempty
  | shut c' s' =>
      refine ⟨closeSide_isOpen v.chans c' s' hclosed, ?_⟩
      rw [Traced.closeSide_dir]
      exact hempty

theorem popAndAttach_status (v : View κ β) (c : κ) (s : Side) (m : Message (Object κ β))
    (rest : List (Message (Object κ β))) (len : Nat) (copied : List UInt8) :
    (v.popAndAttach c s m rest len copied).1.status ≠ .peerClosed := by
  intro hstatus
  rw [popAndAttach] at hstatus
  split at hstatus
  · cases hstatus
  · split at hstatus <;> cases hstatus

omit [DecidableEq κ] in
theorem endpoint_of_toOption {v : View κ β} {ep : Handle} {need : Rights} {cs : κ × Side}
    (h : (v.endpoint ep need).toOption = some cs) : v.endpoint ep need = .ok cs := by
  cases he : v.endpoint ep need with
  | error e => rw [he] at h; cases h
  | ok cs' => rw [he] at h; cases h; rfl

/-- A receive on an empty inbox says which emptiness it is; on any other it never says
`PeerClosed`. -/
theorem receive_reply {v : View κ β} {k : Call} {c : κ} {s : Side} (hk : v.receivesOn k = some (c, s)) :
    (((v.chans c).inbox s).q = [] ∧ (v.call k).1 = v.emptyReply c s) ∨
      (((v.chans c).inbox s).q ≠ [] ∧ (v.call k).1.status ≠ .peerClosed) := by
  cases k with
  | send | sendBytes | close => cases hk
  | recv ep =>
      show _ ∧ (v.chanRecv ep).1 = _ ∨ _ ∧ (v.chanRecv ep).1.status ≠ _
      rw [chanRecv, endpoint_of_toOption hk]
      dsimp only
      cases hq : ((v.chans c).inbox s).q with
      | nil => exact .inl ⟨rfl, rfl⟩
      | cons m rest => exact .inr ⟨List.cons_ne_nil m rest, popAndAttach_status v c s m rest 0 []⟩
  | recvBytes ep dstCap user =>
      show _ ∧ (v.chanRecvBytes ep dstCap user).1 = _ ∨ _ ∧ (v.chanRecvBytes ep dstCap user).1.status ≠ _
      rw [chanRecvBytes, endpoint_of_toOption hk]
      dsimp only
      cases hq : ((v.chans c).inbox s).q with
      | nil => exact .inl ⟨rfl, rfl⟩
      | cons m rest =>
          refine .inr ⟨List.cons_ne_nil m rest, ?_⟩
          intro hstatus
          dsimp only at hstatus
          split at hstatus
          · cases hstatus
          · split at hstatus
            · exact popAndAttach_status v c s m rest _ _ hstatus
            · split at hstatus
              · cases hstatus
              · exact popAndAttach_status v c s m rest _ _ hstatus

/-- `PeerClosed` is said at the end only. -/
theorem ended_of_peerClosed {v : View κ β} {k : Call} {c : κ} {s : Side}
    (hk : v.receivesOn k = some (c, s)) (hr : (v.call k).1.status = .peerClosed) : Ended v.chans c s := by
  rcases receive_reply hk with ⟨hempty, hreply⟩ | ⟨-, hne⟩
  · refine ⟨?_, hempty⟩
    rw [hreply, emptyReply] at hr
    split at hr
    · cases hr
    · next hclosed => exact Bool.eq_false_iff.mpr hclosed
  · exact absurd hr hne

/-- At the end nothing is received. -/
theorem ne_ok_of_ended {v : View κ β} {k : Call} {c : κ} {s : Side} (hk : v.receivesOn k = some (c, s))
    (he : Ended v.chans c s) : (v.call k).1.status ≠ .ok := by
  rcases receive_reply hk with ⟨-, hreply⟩ | ⟨hne, -⟩
  · rw [hreply]
    exact emptyReply_ne_ok v c s
  · exact absurd he.2 hne

end View

/-! ## Runs -/

namespace World

/-- One call by one principal. -/
def step (w : World ι κ β) (a : ι × Call) : World ι κ β := w.commit a.1 ((w.view a.1).call a.2).2

/-- What the call answers. -/
def reply (w : World ι κ β) (a : ι × Call) : Reply := ((w.view a.1).call a.2).1

/-- The call receives at side `s` of channel `c`, and is answered `status`. -/
def Receives (w : World ι κ β) (a : ι × Call) (c : κ) (s : Side) (status : SysStatus) : Prop :=
  (w.view a.1).receivesOn a.2 = some (c, s) ∧ (w.reply a).status = status

/-- Once a receive at an endpoint was told `PeerClosed`, none there succeeds. -/
def Final (w : World ι κ β) (as : List (ι × Call)) : Prop :=
  ∀ pre a mid b post c s, as = pre ++ a :: (mid ++ b :: post) →
    (exec step w pre).Receives a c s .peerClosed →
    ¬ (exec step w (pre ++ a :: mid)).Receives b c s .ok

theorem step_ended {w : World ι κ β} {a : ι × Call} (ha : ¬ (w.view a.1).Late a.2) {c : κ} {s : Side}
    (he : Ended w.chans c s) : Ended (w.step a).chans c s :=
  View.stirs_ended (View.call_stirs (w.view a.1) a.2) ha he

/-- `PeerClosed` is final in every run none of whose sends is late. -/
theorem peerClosed_final (w : World ι κ β) (as : List (ι × Call))
    (h : Guarded step (fun w a => ¬ (w.view a.1).Late a.2) w as) : Final w as := by
  rintro pre a mid b post c s rfl ⟨ha, hra⟩ ⟨hb, hrb⟩
  obtain ⟨-, hla, hrest⟩ := guarded_append.mp h
  obtain ⟨hmid, -⟩ := guarded_append.mp hrest
  have hend : Ended (exec step w pre).chans c s := View.ended_of_peerClosed ha hra
  have hend' : Ended (exec step w (pre ++ a :: mid)).chans c s := by
    rw [exec_append]
    exact exec_guarded (P := fun w : World ι κ β => Ended w.chans c s)
      (fun _ _ hl he => step_ended hl he) mid hmid (step_ended hla hend)
  exact View.ne_ok_of_ended hb hend' hrb

/-- A message and a close; the receiver drains, and asks twice more. -/
def drainThenClosed : List (Bool × Call) :=
  [(false, .send (Handle.new 1 0) 42 0), (false, .close (Handle.new 1 0)), (true, .recv (Handle.new 1 0)),
   (true, .recv (Handle.new 1 0)), (true, .recv (Handle.new 1 0))]

theorem drainThenClosed_final : Final (Traced.pairWorld 2) drainThenClosed := by
  refine peerClosed_final (Traced.pairWorld 2) drainThenClosed ⟨?_, ?_, ?_, ?_, ?_, trivial⟩
  · rintro ⟨c, s, -, hclosed, -⟩
    cases hclosed
  all_goals
    rintro ⟨c, s, hsend, -⟩
    cases hsend

/-- The sender closes; the receiver is told; the sender sends. -/
def closeThenSend : List (Bool × Call) :=
  [(false, .close (Handle.new 1 0)), (true, .recv (Handle.new 1 0)), (false, .send (Handle.new 1 0) 42 0),
   (true, .recv (Handle.new 1 0))]

/-- After `PeerClosed`, a message. -/
theorem received_after_peerClosed : ¬ Final (Traced.pairWorld 2) closeThenSend := by
  intro h
  refine h [closeThenSend[0]] closeThenSend[1] [closeThenSend[2]] closeThenSend[3] [] () .one rfl ?_ ?_
  · exact ⟨rfl, by decide⟩
  · exact ⟨rfl, by decide⟩

end World

end Yuva.Ipc
