/-
# `Yuva.Ipc.Conserve` — what sends and receives conserve

Any number of tables and channels, driven by any list of sends, receives and
closes.  A run is recorded beside the state: per direction, the messages whose
send answered `Ok` (`accepted`) and those a receive answered `Ok` for
(`delivered`).  The n-th accepted message of a direction keeps the place
`ring c s n` while it is in flight, so a capability is always at a `Place`:
a table slot, or a message in flight.

**What a call can do** is the inductive `Outcome`, proved exhaustive once in
`call_outcome`:

    refused     status not `Ok`, nothing changed
    closed      an `open` flag falls
    sent        a message joins its ring, its capability leaves the table
    received    the head leaves its ring, its capability enters the table, and
                the answer is a `Receipt` for it
    dropped     the head leaves its ring and its capability is gone: the
                receiver's table was full

`dropped` is the one outcome that conserves nothing, and `Drops` is exactly
when it is taken, so a run conserves if and only if none of its calls drops.

A `Receipt` is what an answered receive owes its caller: the payload and the bytes
of the message taken, and a handle that resolves, in the caller's own table, to the
capability the message carried.
-/
import Yuva.Lib.Run
import Yuva.Lib.Relocate
import Yuva.Ipc.Channel

namespace Yuva.Caps.CapTable

variable {O : Type*}

/-- What slot `i` holds. -/
def held (t : CapTable O) (i : Nat) : Option (O × Rights) :=
  t.slots[i]?.bind fun s => s.object.map fun o => (o, s.rights)

/-- No slot is free and none can be added. -/
def Full (t : CapTable O) : Prop := t.free = [] ∧ t.cap ≤ t.slots.length

instance (t : CapTable O) : Decidable t.Full :=
  haveI : Decidable (t.free = []) := decidable_of_iff _ List.isEmpty_iff
  inferInstanceAs (Decidable (_ ∧ _))

theorem placed_eq_none {t : CapTable O} (ht : Sound t) : t.placed = none ↔ t.Full := by
  simp only [placed, Full]
  cases hf : t.free with
  | nil => simp
  | cons idx rest =>
      obtain ⟨s, hs, -⟩ := ht.vacant idx (by rw [hf]; exact List.mem_cons_self)
      simp [(List.getElem?_eq_some_iff.mp hs).1]

theorem held_of_live {t : CapTable O} {h : Handle} {i : Nat} {o : O} (hl : t.live h = .ok i)
    (ho : t.objectAt i = some o) : t.held i = some (o, t.rightsAt i) := by
  obtain ⟨s, o', hs, hobj, hobj', hr⟩ := objectAt_of_live hl
  rw [ho] at hobj'
  cases hobj'
  rw [hr]
  simp [held, hs, hobj]

theorem held_freeSlot_self (t : CapTable O) (i : Nat) : (t.freeSlot i).held i = none := by
  simp only [held]
  cases hs : (t.freeSlot i).slots[i]? with
  | none => rfl
  | some s => simp [(freeSlot_slots t i).1 s hs]

theorem held_freeSlot_ne (t : CapTable O) {i j : Nat} (h : j ≠ i) :
    (t.freeSlot i).held j = t.held j := by
  simp only [held, (freeSlot_slots t i).2 j h]

/-- The slot the next `alloc` fills is vacant. -/
theorem held_placed {t : CapTable O} (ht : Sound t) {i : Nat} (hp : t.placed = some i) :
    t.held i = none := by
  simp only [placed] at hp
  split at hp
  · rename_i idx rest hfree
    split at hp
    · cases hp
      obtain ⟨s, hs, hnone⟩ := ht.vacant idx (by rw [hfree]; exact List.mem_cons_self)
      simp [held, hs, hnone]
    · cases hp
  · split at hp
    · cases hp
    · cases hp
      simp [held]

/-- `alloc` fills one vacant slot, and its handle names that slot as far as 32
bits number it. -/
theorem held_alloc {t t' : CapTable O} (ht : Sound t) {r : Rights} {o : O} {h : Handle}
    (ha : t.alloc r o = (some h, t')) : ∃ i, t.held i = none ∧ t'.held i = some (o, r) ∧
      (i < 2 ^ 32 → t'.live h = .ok i) ∧ ∀ j, j ≠ i → t'.held j = t.held j := by
  cases hp : t.placed with
  | none =>
      rw [alloc_of_placed_none hp] at ha
      cases ha
  | some i =>
      obtain ⟨h', t'', g, ha', hnew, hframe⟩ := alloc_of_placed hp r o
      rw [ha] at ha'
      cases ha'
      refine ⟨i, held_placed ht hp, by simp [held, hnew], fun hi => ?_,
        fun j hj => by simp only [held, hframe j hj]⟩
      obtain ⟨h', hh, hlive⟩ := alloc_live hp hi r o
      rw [ha] at hh hlive
      cases hh
      exact hlive

end Yuva.Caps.CapTable

namespace Yuva.Ipc

open Yuva.Caps CapTable Yuva.Run Yuva.Relocate

variable {ι κ β : Type*} [DecidableEq ι] [DecidableEq κ]

/-- The calls, each at the caller's handle. -/
inductive Call where
  | send (ep : Handle) (payload capRaw : BitVec 64)
  | sendBytes (ep : Handle) (payload capRaw : BitVec 64) (len : Nat) (user : Uaccess)
  | recv (ep : Handle)
  | recvBytes (ep : Handle) (dstCap : Nat) (user : Uaccess)
  | close (ep : Handle)

/-- The calls that take a message. -/
def Call.Receives : Call → Prop
  | .recv _ | .recvBytes _ _ _ => True
  | _ => False

namespace View

def call (v : View κ β) : Call → Reply × View κ β
  | .send ep payload capRaw => v.chanSend ep payload capRaw
  | .sendBytes ep payload capRaw len user => v.chanSendBytes ep payload capRaw len user
  | .recv ep => v.chanRecv ep
  | .recvBytes ep dstCap user => v.chanRecvBytes ep dstCap user
  | .close ep => v.chanClose ep

/-! ## What a call is about -/

/-- The capability a raw word names in the caller's table. -/
def carried (v : View κ β) (capRaw : BitVec 64) : Option (Object κ β × Rights) :=
  if capRaw = 0 then none
  else
    match v.table.live (Handle.fromRaw capRaw) with
    | .error _ => none
    | .ok i => (v.table.objectAt i).map fun o => (o, v.table.rightsAt i)

/-- The message a send asks to be enqueued, and the direction. -/
def sending (v : View κ β) : Call → Option (κ × Side × Message (Object κ β))
  | .send ep payload capRaw =>
      match v.endpoint ep Rights.WRITE with
      | .ok (c, s) => some (c, s, ⟨payload, none, v.carried capRaw⟩)
      | .error _ => none
  | .sendBytes ep payload capRaw len user =>
      match v.endpoint ep Rights.WRITE with
      | .ok (c, s) => some (c, s, ⟨payload, sentBytes len user, v.carried capRaw⟩)
      | .error _ => none
  | _ => none

/-- The message at the head of the inbox behind a handle, and its direction. -/
def head (v : View κ β) (ep : Handle) : Option (κ × Side × Message (Object κ β)) :=
  match v.endpoint ep Rights.READ with
  | .ok (c, s) => ((v.chans c).inbox s).q.head?.map fun m => (c, s.peer, m)
  | .error _ => none

/-- The message a receive asks for. -/
def receiving (v : View κ β) : Call → Option (κ × Side × Message (Object κ β))
  | .recv ep => v.head ep
  | .recvBytes ep _ _ => v.head ep
  | _ => none

omit [DecidableEq κ] in
theorem receiving_eq_none {v : View κ β} {k : Call} (h : ¬ k.Receives) : v.receiving k = none := by
  cases k with
  | send | sendBytes | close => rfl
  | recv | recvBytes => exact absurd trivial h

/-- The caller's buffer takes the bytes of `m`. -/
def Fits (m : Message (Object κ β)) : Call → Prop
  | .recvBytes _ dstCap user =>
      m.byteLen ≤ dstCap ∧ ∀ b, m.bytes = some b → b ≠ [] → user.copyToUser b = true
  | _ => True

/-- A receive whose message carries a capability, into a full table. -/
def Drops (v : View κ β) (k : Call) : Prop :=
  ∃ c s m, v.receiving k = some (c, s, m) ∧ m.cap.isSome ∧ Fits m k ∧ v.table.Full

/-! ## The five outcomes -/

/-- The capability `cap` left table `t`. -/
def Parked (t : CapTable (Object κ β)) (cap : Option (Object κ β × Rights))
    (t' : CapTable (Object κ β)) : Prop :=
  (cap = none ∧ t' = t) ∨ ∃ h i o, t.live h = .ok i ∧ t.objectAt i = some o ∧
    cap = some (o, t.rightsAt i) ∧ t' = t.freeSlot i

/-- The capability `cap` entered table `t`. -/
def Attached (t : CapTable (Object κ β)) (cap : Option (Object κ β × Rights))
    (t' : CapTable (Object κ β)) : Prop :=
  (cap = none ∧ t' = t) ∨ ∃ o r h, cap = some (o, r) ∧ t.alloc r o = (some h, t')

/-- The bytes of `m` an answer hands over: all of them, into the caller's buffer,
or none to a scalar receive. -/
def Handed (m : Message (Object κ β)) (r : Reply) : Call → Prop
  | .recvBytes _ dstCap user => r.len = m.byteLen ∧ r.len ≤ dstCap ∧ r.copied = m.bytes.getD [] ∧
      (r.copied ≠ [] → user.copyToUser r.copied = true)
  | _ => r.len = 0 ∧ r.copied = []

/-- What the answer `r` owes the caller for the message `m`, its table being `t`
before the call and `t'` after.  A handle numbers its slot in 32 bits. -/
structure Receipt (m : Message (Object κ β)) (k : Call) (r : Reply)
    (t t' : CapTable (Object κ β)) : Prop where
  payload : r.payload = m.payload
  bytes : Handed m r k
  plain : m.cap = none → r.moved = 0 ∧ t' = t
  capability : ∀ o ρ, m.cap = some (o, ρ) → ∃ i, t.held i = none ∧ t'.held i = some (o, ρ) ∧
    (i < 2 ^ 32 → t'.live (Handle.fromRaw r.moved) = .ok i)

/-- What one call can do. -/
inductive Outcome (v : View κ β) (k : Call) : Reply → View κ β → Prop
  | refused {r : Reply} : r.status ≠ .ok → Outcome v k r v
  | closed {r : Reply} (c : κ) (s : Side) : r.status = .ok → v.sending k = none →
      ¬ k.Receives →
      Outcome v k r { v with chans := Function.update v.chans c ((v.chans c).closeSide s) }
  | sent {r : Reply} {c : κ} {s : Side} {m : Message (Object κ β)} {t' : CapTable (Object κ β)} :
      r.status = .ok → v.sending k = some (c, s, m) → ¬ k.Receives →
      Parked v.table m.cap t' → Outcome v k r ({ v with table := t' }.enqueue c s m)
  | received {r : Reply} {c : κ} {s : Side} {m : Message (Object κ β)}
      {rest : List (Message (Object κ β))} {t' : CapTable (Object κ β)} :
      r.status = .ok → v.receiving k = some (c, s, m) → v.sending k = none →
      ((v.chans c).dir s).q = m :: rest → Attached v.table m.cap t' → Receipt m k r v.table t' →
      Outcome v k r ⟨t', Function.update v.chans c ((v.chans c).setQueue s rest)⟩
  | dropped {r : Reply} {c : κ} {s : Side} {m : Message (Object κ β)}
      {rest : List (Message (Object κ β))} :
      r.status = .objFull → v.receiving k = some (c, s, m) → Drops v k →
      ((v.chans c).dir s).q = m :: rest →
      Outcome v k r ⟨v.table, Function.update v.chans c ((v.chans c).setQueue s rest)⟩

omit [DecidableEq κ] in
theorem endpoint_error_ne_ok {v : View κ β} {ep : Handle} {need : Rights} {e : SysStatus}
    (h : v.endpoint ep need = .error e) : e ≠ .ok := by
  simp only [endpoint] at h
  split at h
  · rename_i hl
    cases h
    exact live_error_ne_ok hl
  · split at h
    · cases h; decide
    · split at h
      · cases h; decide
      · split at h
        · cases h; decide
        · cases h

/-- `park` refuses and leaves the table, or takes out what the raw word names. -/
theorem park_cases (v : View κ β) (c : κ) (capRaw : BitVec 64) :
    (∃ e, e ≠ .ok ∧ v.park c capRaw = (.error e, v.table)) ∨
    ∃ t', v.park c capRaw = (.ok (v.carried capRaw), t') ∧ Parked v.table (v.carried capRaw) t' := by
  simp only [park, carried]
  split
  · exact .inr ⟨v.table, rfl, .inl ⟨rfl, rfl⟩⟩
  · cases hl : v.table.live (Handle.fromRaw capRaw) with
    | error e => exact .inl ⟨e, live_error_ne_ok hl, rfl⟩
    | ok i =>
        simp only
        split
        · exact .inl ⟨.denied, by decide, rfl⟩
        · split
          · exact .inl ⟨.denied, by decide, rfl⟩
          · obtain ⟨s, o, -, -, ho, -⟩ := objectAt_of_live hl
            refine .inr ⟨v.table.freeSlot i, by simp [detach, hl, ho], .inr ?_⟩
            exact ⟨_, i, o, hl, ho, by simp [ho], rfl⟩

/-- The tail of a send. -/
theorem parkAndEnqueue_outcome {v : View κ β} {k : Call} {c : κ} {s : Side}
    {payload capRaw : BitVec 64} {bytes : Option (List UInt8)}
    (hs : v.sending k = some (c, s, ⟨payload, bytes, v.carried capRaw⟩))
    (hr : ¬ k.Receives) :
    Outcome v k (v.parkAndEnqueue c s payload capRaw bytes).1
      (v.parkAndEnqueue c s payload capRaw bytes).2 := by
  rcases park_cases v c capRaw with ⟨e, he, hp⟩ | ⟨t', hp, ht'⟩
  · simp only [parkAndEnqueue, hp]
    exact .refused he
  · simp only [parkAndEnqueue, hp]
    exact .sent rfl hs hr ht'

/-- The tail of a receive. -/
theorem popAndAttach_outcome {v : View κ β} (hv : Sound v.table) {k : Call} {c : κ} {s : Side}
    {m : Message (Object κ β)} {rest : List (Message (Object κ β))} {len : Nat}
    {copied : List UInt8} (hs : v.sending k = none) (hr : v.receiving k = some (c, s.peer, m))
    (hfit : Fits m k) (hq : ((v.chans c).dir s.peer).q = m :: rest)
    (hb : ∀ st p h, Handed m ⟨st, p, h, len, copied⟩ k) :
    Outcome v k (v.popAndAttach c s m rest len copied).1 (v.popAndAttach c s m rest len copied).2 := by
  simp only [popAndAttach]
  cases hc : m.cap with
  | none =>
      refine .received rfl hr hs hq (.inl ⟨hc, rfl⟩) ⟨rfl, hb _ _ _, fun _ => ⟨rfl, rfl⟩, ?_⟩
      intro o ρ ho
      rw [hc] at ho
      cases ho
  | some parked =>
      simp only [attach]
      cases ha : v.table.alloc parked.2 parked.1 with
      | mk h t' =>
          cases h with
          | some h =>
              refine .received rfl hr hs hq (.inr ⟨parked.1, parked.2, h, hc, ha⟩)
                ⟨rfl, hb _ _ _, fun hn => ?_, ?_⟩
              · rw [hc] at hn
                cases hn
              · intro o ρ ho
                rw [hc] at ho
                cases ho
                obtain ⟨i, hvac, hnew, hlive, -⟩ := held_alloc hv ha
                exact ⟨i, hvac, hnew, hlive⟩
          | none =>
              have hp : v.table.placed = none := by
                cases hp : v.table.placed with
                | none => rfl
                | some i =>
                    obtain ⟨h', t'', g, ha', -⟩ := alloc_of_placed hp parked.2 parked.1
                    rw [ha] at ha'
                    cases ha'
              rw [alloc_of_placed_none hp] at ha
              cases ha
              exact .dropped rfl hr
                ⟨c, s.peer, m, hr, by simp [hc], hfit, (placed_eq_none hv).mp hp⟩ hq

omit [DecidableEq κ] in
theorem head_of_queue {v : View κ β} {ep : Handle} {c : κ} {s : Side}
    {m : Message (Object κ β)} {rest : List (Message (Object κ β))}
    (he : v.endpoint ep Rights.READ = .ok (c, s)) (hq : ((v.chans c).inbox s).q = m :: rest) :
    v.head ep = some (c, s.peer, m) := by
  simp only [head, he, hq]
  rfl

omit [DecidableEq κ] in
theorem emptyReply_ne_ok (v : View κ β) (c : κ) (s : Side) : (v.emptyReply c s).status ≠ .ok := by
  simp only [emptyReply]
  split <;> decide

omit [DecidableEq κ] in
theorem setQueue_self {ch : Channel (Object κ β)} {s : Side} {q : List (Message (Object κ β))}
    (hq : (ch.dir s).q = q) : ch.setQueue s q = ch := by
  subst hq
  simp [Channel.setQueue]

theorem chanSend_outcome (v : View κ β) (ep : Handle) (payload capRaw : BitVec 64) :
    Outcome v (.send ep payload capRaw) (v.chanSend ep payload capRaw).1
      (v.chanSend ep payload capRaw).2 := by
  simp only [chanSend]
  cases he : v.endpoint ep Rights.WRITE with
  | error e => exact .refused (endpoint_error_ne_ok he)
  | ok cs =>
      obtain ⟨c, s⟩ := cs
      simp only
      split
      · exact .refused (by simp [Reply.err])
      · split
        · exact .refused (by simp [Reply.err])
        · exact parkAndEnqueue_outcome (by simp only [sending, he]) id

theorem chanSendBytes_outcome (v : View κ β) (ep : Handle) (payload capRaw : BitVec 64) (len : Nat)
    (user : Uaccess) :
    Outcome v (.sendBytes ep payload capRaw len user) (v.chanSendBytes ep payload capRaw len user).1
      (v.chanSendBytes ep payload capRaw len user).2 := by
  simp only [chanSendBytes]
  cases he : v.endpoint ep Rights.WRITE with
  | error e => exact .refused (endpoint_error_ne_ok he)
  | ok cs =>
      obtain ⟨c, s⟩ := cs
      simp only
      split
      · exact .refused (by simp [Reply.err])
      · split
        · exact .refused (by simp [Reply.err])
        · split
          · exact .refused (by simp [Reply.err])
          · cases hb : sentBytes len user with
            | none => exact .refused (by simp [Reply.err])
            | some bytes => exact parkAndEnqueue_outcome (by simp only [sending, he, hb]) id

theorem chanRecv_outcome {v : View κ β} (hv : Sound v.table) (ep : Handle) :
    Outcome v (.recv ep) (v.chanRecv ep).1 (v.chanRecv ep).2 := by
  simp only [chanRecv]
  cases he : v.endpoint ep Rights.READ with
  | error e => exact .refused (endpoint_error_ne_ok he)
  | ok cs =>
      obtain ⟨c, s⟩ := cs
      simp only
      cases hq : ((v.chans c).inbox s).q with
      | nil => exact .refused (emptyReply_ne_ok v c s)
      | cons m rest =>
          exact popAndAttach_outcome hv rfl (head_of_queue he hq) trivial hq fun _ _ _ => ⟨rfl, rfl⟩

theorem chanRecvBytes_outcome {v : View κ β} (hv : Sound v.table) (ep : Handle) (dstCap : Nat)
    (user : Uaccess) :
    Outcome v (.recvBytes ep dstCap user) (v.chanRecvBytes ep dstCap user).1
      (v.chanRecvBytes ep dstCap user).2 := by
  simp only [chanRecvBytes]
  cases he : v.endpoint ep Rights.READ with
  | error e => exact .refused (endpoint_error_ne_ok he)
  | ok cs =>
      obtain ⟨c, s⟩ := cs
      simp only
      cases hq : ((v.chans c).inbox s).q with
      | nil => exact .refused (emptyReply_ne_ok v c s)
      | cons m rest =>
          simp only
          split
          · exact .refused (by simp [Reply.err])
          · rename_i hlen
            have hle : m.byteLen ≤ dstCap := Nat.le_of_not_gt hlen
            cases hb : m.bytes with
            | none =>
                refine popAndAttach_outcome hv rfl (head_of_queue he hq) ⟨hle, ?_⟩ hq fun _ _ _ => ?_
                · intro b hb'
                  rw [hb] at hb'
                  cases hb'
                · exact ⟨rfl, hle, by rw [hb]; rfl, fun hne => absurd rfl hne⟩
            | some bytes =>
                simp only
                split
                · -- the message goes back to the front: nothing changed
                  have hsame : (v.chans c).setQueue s.peer (m :: rest) = v.chans c :=
                    setQueue_self hq
                  rw [hsame, Function.update_eq_self]
                  exact .refused (by simp [Reply.err])
                · rename_i hcopy
                  have hstored : bytes ≠ [] → user.copyToUser bytes = true := fun hne => by
                    simpa [hne] using hcopy
                  refine popAndAttach_outcome hv rfl (head_of_queue he hq) ⟨hle, ?_⟩ hq fun _ _ _ => ?_
                  · intro b hb' hne
                    rw [hb] at hb'
                    cases hb'
                    exact hstored hne
                  · exact ⟨rfl, hle, by rw [hb]; rfl, hstored⟩

theorem chanClose_outcome (v : View κ β) (ep : Handle) :
    Outcome v (.close ep) (v.chanClose ep).1 (v.chanClose ep).2 := by
  simp only [chanClose]
  cases he : v.endpoint ep Rights.NONE with
  | error e => exact .refused (endpoint_error_ne_ok he)
  | ok cs => exact .closed cs.1 cs.2 rfl rfl id

/-- Every call has one of the five outcomes. -/
theorem call_outcome {v : View κ β} (hv : Sound v.table) (k : Call) :
    Outcome v k (v.call k).1 (v.call k).2 := by
  cases k with
  | send ep payload capRaw => exact chanSend_outcome v ep payload capRaw
  | sendBytes ep payload capRaw len user => exact chanSendBytes_outcome v ep payload capRaw len user
  | recv ep => exact chanRecv_outcome hv ep
  | recvBytes ep dstCap user => exact chanRecvBytes_outcome hv ep dstCap user
  | close ep => exact chanClose_outcome v ep

omit [DecidableEq κ] in
theorem head_eq_some {v : View κ β} {ep : Handle} {c : κ} {s : Side} {m : Message (Object κ β)}
    (h : v.head ep = some (c, s, m)) : ∃ side rest, s = side.peer ∧
      v.endpoint ep Rights.READ = .ok (c, side) ∧ ((v.chans c).inbox side).q = m :: rest := by
  simp only [head] at h
  split at h
  · rename_i c' side he
    cases hq : ((v.chans c').inbox side).q with
    | nil => simp [hq] at h
    | cons m' rest =>
        simp only [hq, List.head?_cons, Option.map_some, Option.some.injEq, Prod.mk.injEq] at h
        obtain ⟨rfl, rfl, rfl⟩ := h
        exact ⟨side, rest, rfl, he, hq⟩
  · cases h

/-- Popping a message whose capability finds no slot loses it. -/
theorem popAndAttach_full {v : View κ β} (hv : Sound v.table) (hfull : v.table.Full) {c : κ}
    {s : Side} {m : Message (Object κ β)} (hm : m.cap.isSome)
    (rest : List (Message (Object κ β))) (len : Nat) (copied : List UInt8) :
    v.popAndAttach c s m rest len copied =
      (⟨.objFull, m.payload, 0, len, copied⟩,
        ⟨v.table, Function.update v.chans c ((v.chans c).setQueue s.peer rest)⟩) := by
  obtain ⟨parked, hc⟩ := Option.isSome_iff_exists.mp hm
  simp only [popAndAttach, hc, attach, alloc_of_placed_none ((placed_eq_none hv).mpr hfull)]

/-- A call that drops pops its message and answers `ObjFull`. -/
theorem call_of_drops {v : View κ β} (hv : Sound v.table) {k : Call} (hd : Drops v k) :
    ∃ r c s m rest, v.call k =
        (r, ⟨v.table, Function.update v.chans c ((v.chans c).setQueue s rest)⟩) ∧
      r.status = .objFull ∧ ((v.chans c).dir s).q = m :: rest := by
  obtain ⟨c, s, m, hr, hm, hfit, hfull⟩ := hd
  cases k with
  | send | sendBytes | close => cases hr
  | recv ep =>
      obtain ⟨side, rest, rfl, he, hq⟩ := head_eq_some hr
      refine ⟨⟨.objFull, m.payload, 0, 0, []⟩, c, side.peer, m, rest, ?_, rfl, hq⟩
      simp only [call, chanRecv, he, hq]
      exact popAndAttach_full hv hfull hm rest 0 []
  | recvBytes ep dstCap user =>
      obtain ⟨side, rest, rfl, he, hq⟩ := head_eq_some hr
      refine ⟨⟨.objFull, m.payload, 0, m.byteLen, m.bytes.getD []⟩, c, side.peer, m, rest, ?_, rfl, hq⟩
      simp only [call, chanRecvBytes, he, hq]
      rw [if_neg (Nat.not_lt.mpr hfit.1)]
      cases hb : m.bytes with
      | none => exact popAndAttach_full hv hfull hm rest _ _
      | some bytes =>
          have hcopy : (!bytes.isEmpty && !user.copyToUser bytes) = false := by
            by_cases hne : bytes = []
            · simp [hne]
            · simp [hfit.2 bytes hb hne]
          simp only [hcopy]
          exact popAndAttach_full hv hfull hm rest _ _

end View

/-! ## Runs, recorded -/

/-- Every principal's table and every channel core. -/
structure World (ι κ β : Type*) where
  tables : ι → CapTable (Object κ β)
  chans : κ → Channel (Object κ β)

/-- What principal `t` reaches. -/
def World.view (w : World ι κ β) (t : ι) : View κ β := ⟨w.tables t, w.chans⟩

/-- The world after principal `t`'s call left `v`. -/
def World.commit (w : World ι κ β) (t : ι) (v : View κ β) : World ι κ β :=
  ⟨Function.update w.tables t v.table, v.chans⟩

/-- A world, with the messages accepted and delivered so far in each direction. -/
structure Traced (ι κ β : Type*) where
  world : World ι κ β
  accepted : κ → Side → List (Message (Object κ β))
  delivered : κ → Side → List (Message (Object κ β))

/-- Append to the log of one direction. -/
def log {M : Type*} (f : κ → Side → List M) : Option (κ × Side × M) → κ → Side → List M
  | none => f
  | some (c, s, m) => fun c' s' => if c' = c ∧ s' = s then f c' s' ++ [m] else f c' s'

namespace Traced

/-- Recording starts: what is in flight was accepted before. -/
def start (w : World ι κ β) : Traced ι κ β :=
  ⟨w, fun c s => ((w.chans c).dir s).q, fun _ _ => []⟩

/-- One call by one principal, recorded. -/
def step (g : Traced ι κ β) (a : ι × Call) : Traced ι κ β :=
  let v := g.world.view a.1
  let (r, v') := v.call a.2
  { world := g.world.commit a.1 v'
    accepted := if r.status = .ok then log g.accepted (v.sending a.2) else g.accepted
    delivered := if r.status = .ok then log g.delivered (v.receiving a.2) else g.delivered }

/-- What the call answers. -/
def reply (g : Traced ι κ β) (a : ι × Call) : Reply := ((g.world.view a.1).call a.2).1

/-- The ring of one direction. -/
def ring (g : Traced ι κ β) (c : κ) (s : Side) : List (Message (Object κ β)) :=
  ((g.world.chans c).dir s).q

end Traced

/-- Where a capability can be: a table slot, or the n-th message of a direction. -/
inductive Place (ι κ : Type*) where
  | slot (t : ι) (i : Nat)
  | ring (c : κ) (s : Side) (n : Nat)
deriving DecidableEq

/-- The capability of the n-th message, `done` of which have left the ring. -/
def inFlight {O : Type*} (done : Nat) (q : List (Message O)) (n : Nat) : Option (O × Rights) :=
  if n < done then none else q[n - done]?.bind (·.cap)

theorem inFlight_push {O : Type*} (done : Nat) (q : List (Message O)) (m : Message O) (n : Nat) :
    inFlight done (q ++ [m]) n = if n = done + q.length then m.cap else inFlight done q n := by
  simp only [inFlight]
  by_cases hn : n < done
  · rw [if_pos hn, if_pos hn, if_neg (by omega)]
  · rw [if_neg hn, if_neg hn]
    by_cases he : n = done + q.length
    · rw [if_pos he, he, Nat.add_sub_cancel_left]
      simp
    · rw [if_neg he]
      by_cases hlt : n - done < q.length
      · rw [List.getElem?_append_left hlt]
      · rw [List.getElem?_eq_none (by simp only [List.length_append, List.length_singleton]; omega),
          List.getElem?_eq_none (by omega)]

theorem inFlight_pop {O : Type*} (done : Nat) (m : Message O) (rest : List (Message O)) (n : Nat) :
    inFlight (done + 1) rest n = if n = done then none else inFlight done (m :: rest) n := by
  simp only [inFlight]
  by_cases he : n = done
  · rw [if_pos he, if_pos (by omega)]
  · rw [if_neg he]
    by_cases hn : n < done
    · rw [if_pos hn, if_pos (by omega)]
    · rw [if_neg hn, if_neg (by omega)]
      have hsub : n - done = (n - (done + 1)) + 1 := by omega
      rw [hsub, List.getElem?_cons_succ]

theorem inFlight_head {O : Type*} (done : Nat) (m : Message O) (rest : List (Message O)) :
    inFlight done (m :: rest) done = m.cap := by simp [inFlight]

namespace Traced

/-- What each place holds. -/
def contents (g : Traced ι κ β) : Place ι κ → Option (Object κ β × Rights)
  | .slot t i => (g.world.tables t).held i
  | .ring c s n => inFlight (g.delivered c s).length (g.ring c s) n

/-- Every table is sound, and what was accepted is what was delivered followed
by what is in flight. -/
structure Inv (g : Traced ι κ β) : Prop where
  sound : ∀ t, Sound (g.world.tables t)
  fifo : ∀ c s, g.accepted c s = g.delivered c s ++ g.ring c s

omit [DecidableEq ι] [DecidableEq κ] in
theorem inv_start {w : World ι κ β} (hw : ∀ t, Sound (w.tables t)) : Inv (start w) :=
  ⟨hw, fun _ _ => rfl⟩

/-- The call leaves the caller's table and every ring as they were. -/
def Unchanged (g g' : Traced ι κ β) : Prop :=
  g'.world.tables = g.world.tables ∧ g'.ring = g.ring

/-! ## What one step conserves -/

omit [DecidableEq ι] in
/-- A send lengthens one ring. -/
theorem enqueue_q (v : View κ β) (c : κ) (s : Side) (m : Message (Object κ β)) (c' : κ)
    (s' : Side) : (((v.enqueue c s m).chans c').dir s').q =
      if c' = c ∧ s' = s then ((v.chans c).dir s).q ++ [m] else ((v.chans c').dir s').q := by
  simp only [View.enqueue, Channel.outbox]
  by_cases hc : c' = c
  · subst hc
    by_cases hs : s' = s
    · subst hs
      simp
    · simp [hs, Channel.setQueue_dir_ne _ _ hs]
  · simp [hc]

omit [DecidableEq ι] in
/-- A receive shortens one ring. -/
theorem pop_q (chans : κ → Channel (Object κ β)) (c : κ) (s : Side)
    (rest : List (Message (Object κ β))) (c' : κ) (s' : Side) :
    ((Function.update chans c ((chans c).setQueue s rest) c').dir s').q =
      if c' = c ∧ s' = s then rest else ((chans c').dir s').q := by
  by_cases hc : c' = c
  · subst hc
    by_cases hs : s' = s
    · subst hs
      simp
    · simp [hs, Channel.setQueue_dir_ne _ _ hs]
  · simp [hc]

omit [DecidableEq ι] in
/-- A close leaves the rings alone. -/
theorem closeSide_dir (chans : κ → Channel (Object κ β)) (c : κ) (s : Side) (c' : κ) :
    (Function.update chans c ((chans c).closeSide s) c').dir = (chans c').dir := by
  rw [Function.update_apply]
  split
  · next hc => rw [hc]; rfl
  · rfl

/-- The state a call leaves, from its answer. -/
theorem step_eq {g : Traced ι κ β} {a : ι × Call} {r : Reply} {v' : View κ β}
    (h : (g.world.view a.1).call a.2 = (r, v')) : g.step a =
      { world := g.world.commit a.1 v'
        accepted := if r.status = .ok then log g.accepted ((g.world.view a.1).sending a.2)
          else g.accepted
        delivered := if r.status = .ok then log g.delivered ((g.world.view a.1).receiving a.2)
          else g.delivered } := by
  simp only [step, h]

/-- A refused call is no step at all. -/
theorem step_refused {g : Traced ι κ β} {a : ι × Call} {r : Reply}
    (h : (g.world.view a.1).call a.2 = (r, g.world.view a.1)) (hr : r.status ≠ .ok) :
    g.step a = g := by
  rw [step_eq h, if_neg hr, if_neg hr]
  simp [World.commit, World.view]

/-- A send: the capability, if any, that left table `t` is with the message. -/
theorem relocates_sent {g g' : Traced ι κ β} {t : ι} {c : κ} {s : Side}
    {m : Message (Object κ β)} {t' : CapTable (Object κ β)}
    (htab : g'.world.tables = Function.update g.world.tables t t')
    (hq : ∀ c' s', g'.ring c' s' = if c' = c ∧ s' = s then g.ring c s ++ [m] else g.ring c' s')
    (hdel : g'.delivered = g.delivered) (hp : View.Parked (g.world.tables t) m.cap t') :
    Relocates g.contents g'.contents := by
  have hring : ∀ c' s' n, g'.contents (.ring c' s' n) =
      if c' = c ∧ s' = s ∧ n = (g.delivered c s).length + (g.ring c s).length then m.cap
      else g.contents (.ring c' s' n) := by
    intro c' s' n
    simp only [contents, hq, hdel]
    by_cases hcs : c' = c ∧ s' = s
    · obtain ⟨rfl, rfl⟩ := hcs
      simp only [and_self, if_true, true_and]
      exact inFlight_push _ _ m n
    · rw [if_neg hcs, if_neg (fun h => hcs ⟨h.1, h.2.1⟩)]
  rcases hp with ⟨hcap, rfl⟩ | ⟨h, i, o, hl, ho, hcap, rfl⟩
  · -- nothing moved: the new place of the ring holds nothing
    refine Relocates.of_eq fun p => ?_
    cases p with
    | slot u j => simp [contents, htab]
    | ring c' s' n =>
        rw [hring]
        split
        · rename_i hn
          obtain ⟨rfl, rfl, rfl⟩ := hn
          simp [hcap, contents, inFlight]
        · rfl
  · refine Relocates.of_move (p := .slot t i)
      (q := .ring c s ((g.delivered c s).length + (g.ring c s).length)) ?_ ?_ ?_ ?_
    · simp [contents, inFlight]
    · simp [contents, htab, held_freeSlot_self]
    · rw [hring, if_pos ⟨rfl, rfl, rfl⟩, hcap]
      exact (held_of_live hl ho).symm
    · intro p hp hq
      cases p with
      | slot u j =>
          by_cases hu : u = t
          · subst hu
            have hj : j ≠ i := fun e => hp (by rw [e])
            simp [contents, htab, held_freeSlot_ne _ hj]
          · simp [contents, htab, Function.update_of_ne hu]
      | ring c' s' n =>
          rw [hring, if_neg]
          rintro ⟨rfl, rfl, rfl⟩
          exact hq rfl

/-- A receive: the capability, if any, that left the ring is in table `t`. -/
theorem relocates_received {g g' : Traced ι κ β} {t : ι} (ht : Sound (g.world.tables t)) {c : κ}
    {s : Side} {m : Message (Object κ β)} {rest : List (Message (Object κ β))}
    {t' : CapTable (Object κ β)} (hhd : g.ring c s = m :: rest)
    (htab : g'.world.tables = Function.update g.world.tables t t')
    (hq : ∀ c' s', g'.ring c' s' = if c' = c ∧ s' = s then rest else g.ring c' s')
    (hdel : g'.delivered = log g.delivered (some (c, s, m)))
    (hp : View.Attached (g.world.tables t) m.cap t') : Relocates g.contents g'.contents := by
  have hring : ∀ c' s' n, g'.contents (.ring c' s' n) =
      if c' = c ∧ s' = s ∧ n = (g.delivered c s).length then none
      else g.contents (.ring c' s' n) := by
    intro c' s' n
    simp only [contents, hq, hdel, log]
    by_cases hcs : c' = c ∧ s' = s
    · obtain ⟨rfl, rfl⟩ := hcs
      simp only [and_self, if_true, true_and, List.length_append, List.length_singleton]
      rw [inFlight_pop _ m, ← hhd]
    · rw [if_neg hcs, if_neg hcs, if_neg (fun h => hcs ⟨h.1, h.2.1⟩)]
  have hhead : g.contents (.ring c s (g.delivered c s).length) = m.cap := by
    simp only [contents, hhd, inFlight_head]
  rcases hp with ⟨hcap, rfl⟩ | ⟨o, r, h, hcap, ha⟩
  · refine Relocates.of_eq fun p => ?_
    cases p with
    | slot u j => simp [contents, htab]
    | ring c' s' n =>
        rw [hring]
        split
        · rename_i hn
          obtain ⟨rfl, rfl, rfl⟩ := hn
          rw [hhead, hcap]
        · rfl
  · obtain ⟨i, hvac, hnew, -, hframe⟩ := held_alloc ht ha
    refine Relocates.of_move (p := .ring c s (g.delivered c s).length) (q := .slot t i)
      hvac ?_ ?_ ?_
    · rw [hring, if_pos ⟨rfl, rfl, rfl⟩]
    · rw [hhead, hcap]
      simp [contents, htab, hnew]
    · intro p hp hq'
      cases p with
      | slot u j =>
          by_cases hu : u = t
          · subst hu
            have hj : j ≠ i := fun e => hq' (by rw [e])
            simp [contents, htab, hframe j hj]
          · simp [contents, htab, Function.update_of_ne hu]
      | ring c' s' n =>
          rw [hring, if_neg]
          rintro ⟨rfl, rfl, rfl⟩
          exact hp rfl

omit [DecidableEq ι] [DecidableEq κ] in
theorem parked_change {t t' : CapTable (Object κ β)} {cap : Option (Object κ β × Rights)}
    (h : View.Parked t cap t') : Change t t' := by
  rcases h with ⟨-, rfl⟩ | ⟨h, i, o, hl, -, -, rfl⟩
  · exact .same
  · exact .vacate hl

omit [DecidableEq ι] [DecidableEq κ] in
theorem attached_change {t t' : CapTable (Object κ β)} {cap : Option (Object κ β × Rights)}
    (h : View.Attached t cap t') : Change t t' := by
  rcases h with ⟨-, rfl⟩ | ⟨o, r, h, -, ha⟩
  · exact .same
  · have hc := alloc_change t r o
    rwa [ha] at hc

omit [DecidableEq κ] in
theorem sound_update {tables : ι → CapTable (Object κ β)} (hw : ∀ u, Sound (tables u)) {t : ι}
    {t' : CapTable (Object κ β)} (hc : Change (tables t) t') (u : ι) :
    Sound (Function.update tables t t' u) := by
  by_cases hu : u = t
  · subst hu
    rw [Function.update_self]
    exact hc.sound (hw u)
  · rw [Function.update_of_ne hu]
    exact hw u

/-- What a step that drops nothing conserves. -/
structure Conserving (g g' : Traced ι κ β) : Prop where
  inv : Inv g'
  moved : Relocates g.contents g'.contents

omit [DecidableEq ι] [DecidableEq κ] in
theorem conserving_closed {g g' : Traced ι κ β} (hg : Inv g) (htab : g'.world.tables = g.world.tables)
    (hring : g'.ring = g.ring) (hacc : g'.accepted = g.accepted) (hdel : g'.delivered = g.delivered) :
    Conserving g g' := by
  refine ⟨⟨?_, ?_⟩, Relocates.of_eq ?_⟩
  · rw [htab]
    exact hg.sound
  · intro c s
    rw [hring, hacc, hdel]
    exact hg.fifo c s
  · intro p
    cases p with
    | slot u j => rw [contents, contents, htab]
    | ring c s n => rw [contents, contents, hring, hdel]

theorem conserving_sent {g g' : Traced ι κ β} (hg : Inv g) {t : ι} {c : κ} {s : Side}
    {m : Message (Object κ β)} {t' : CapTable (Object κ β)}
    (htab : g'.world.tables = Function.update g.world.tables t t')
    (hring : ∀ c' s', g'.ring c' s' = if c' = c ∧ s' = s then g.ring c s ++ [m] else g.ring c' s')
    (hacc : g'.accepted = log g.accepted (some (c, s, m))) (hdel : g'.delivered = g.delivered)
    (hp : View.Parked (g.world.tables t) m.cap t') : Conserving g g' := by
  refine ⟨⟨?_, ?_⟩, relocates_sent htab hring hdel hp⟩
  · rw [htab]
    exact sound_update hg.sound (parked_change hp)
  · intro c' s'
    rw [hring, hacc, hdel]
    simp only [log]
    split
    · next hcs =>
        obtain ⟨rfl, rfl⟩ := hcs
        rw [hg.fifo, List.append_assoc]
    · exact hg.fifo c' s'

theorem conserving_received {g g' : Traced ι κ β} (hg : Inv g) {t : ι} {c : κ} {s : Side}
    {m : Message (Object κ β)} {rest : List (Message (Object κ β))} {t' : CapTable (Object κ β)}
    (hhd : g.ring c s = m :: rest) (htab : g'.world.tables = Function.update g.world.tables t t')
    (hring : ∀ c' s', g'.ring c' s' = if c' = c ∧ s' = s then rest else g.ring c' s')
    (hacc : g'.accepted = g.accepted) (hdel : g'.delivered = log g.delivered (some (c, s, m)))
    (hp : View.Attached (g.world.tables t) m.cap t') : Conserving g g' := by
  refine ⟨⟨?_, ?_⟩, relocates_received (hg.sound t) hhd htab hring hdel hp⟩
  · rw [htab]
    exact sound_update hg.sound (attached_change hp)
  · intro c' s'
    rw [hring, hacc, hdel]
    simp only [log]
    split
    · next hcs =>
        obtain ⟨rfl, rfl⟩ := hcs
        rw [hg.fifo, hhd, List.append_assoc]
        rfl
    · exact hg.fifo c' s'

/-- A receive answered `Ok` takes the first message of its direction that was
accepted and not yet delivered, and answers with its receipt. -/
def Delivers (g : Traced ι κ β) (a : ι × Call) : Prop :=
  a.2.Receives → (g.reply a).status = .ok → ∃ c s m,
    (g.world.view a.1).receiving a.2 = some (c, s, m) ∧
    (g.accepted c s)[(g.delivered c s).length]? = some m ∧
    (g.step a).delivered = log g.delivered (some (c, s, m)) ∧
    View.Receipt m a.2 (g.reply a) (g.world.tables a.1) ((g.step a).world.tables a.1)

/-- A step drops, or conserves and delivers; a call not answered `Ok` then changes nothing. -/
theorem step_cases {g : Traced ι κ β} (hg : Inv g) (a : ι × Call) :
    (g.world.view a.1).Drops a.2 ∨
      (Conserving g (g.step a) ∧ Delivers g a ∧
        ((g.reply a).status ≠ .ok → Unchanged g (g.step a))) := by
  have ho := View.call_outcome (v := g.world.view a.1) (hg.sound a.1) a.2
  cases hc : (g.world.view a.1).call a.2 with
  | mk r v' =>
      have hreply : g.reply a = r := by simp only [reply, hc]
      have hstep := step_eq hc
      rw [hc] at ho
      rw [Delivers, hreply]
      cases ho with
      | refused hr =>
          rw [step_refused hc hr]
          exact .inr ⟨⟨hg, .refl _⟩, fun _ hok => absurd hok hr, fun _ => ⟨rfl, rfl⟩⟩
      | closed c s hr hs hv =>
          rw [if_pos hr, if_pos hr, hs, View.receiving_eq_none hv] at hstep
          refine .inr ⟨conserving_closed hg ?_ ?_ ?_ ?_, fun h => absurd h hv, fun hne => absurd hr hne⟩
          · rw [hstep]
            exact Function.update_eq_self _ _
          · funext c' s'
            rw [hstep]
            show ((Function.update g.world.chans c ((g.world.chans c).closeSide s) c').dir s').q = _
            rw [closeSide_dir]
            rfl
          · rw [hstep]; rfl
          · rw [hstep]; rfl
      | @sent c s m t' hr hs hv hp =>
          rw [if_pos hr, if_pos hr, hs, View.receiving_eq_none hv] at hstep
          refine .inr ⟨conserving_sent hg (by rw [hstep]; rfl) ?_ (by rw [hstep]) (by rw [hstep]; rfl) hp,
            fun h => absurd h hv, fun hne => absurd hr hne⟩
          intro c' s'
          rw [hstep]
          exact enqueue_q _ c s m c' s'
      | @received c s m rest t' hr hv hs hq hp hrc =>
          rw [if_pos hr, if_pos hr, hs, hv] at hstep
          have htab : (g.step a).world.tables = Function.update g.world.tables a.1 t' := by
            rw [hstep]
            rfl
          have hdel : (g.step a).delivered = log g.delivered (some (c, s, m)) := by rw [hstep]
          refine .inr ⟨conserving_received hg hq htab ?_ (by rw [hstep]; rfl) hdel hp, ?_,
            fun hne => absurd hr hne⟩
          · intro c' s'
            rw [hstep]
            exact pop_q _ c s rest c' s'
          · intro _ _
            refine ⟨c, s, m, hv, ?_, hdel, ?_⟩
            · rw [hg.fifo c s, List.getElem?_append_right (Nat.le_refl _), Nat.sub_self, ring,
                show ((g.world.chans c).dir s).q = m :: rest from hq]
              rfl
            · rw [htab, Function.update_self]
              exact hrc
      | dropped hr hv hd hq => exact .inl hd

/-- A call that drops does not answer `Ok`, and shortens a ring. -/
theorem step_of_drops {g : Traced ι κ β} (hg : Inv g) {a : ι × Call}
    (hd : (g.world.view a.1).Drops a.2) :
    (g.reply a).status ≠ .ok ∧ ¬ Unchanged g (g.step a) := by
  obtain ⟨r, c, s, m, rest, hc, hr, hq⟩ := View.call_of_drops (hg.sound a.1) hd
  have hring : (g.step a).ring c s = rest := by
    rw [step_eq hc]
    show ((Function.update g.world.chans c ((g.world.chans c).setQueue s rest) c).dir s).q = _
    rw [pop_q]
    simp
  refine ⟨by simp [reply, hc, hr], ?_⟩
  rintro ⟨-, hsame⟩
  rw [hsame, ring, show ((g.world.chans c).dir s).q = m :: rest from hq] at hring
  exact List.cons_ne_self m rest hring

/-! ## What a run conserves -/

/-- At every moment of the run each capability is where exactly one place holds
it, and what was accepted is what was delivered followed by what is in flight.
Every receive answered `Ok` delivers the next of these messages, payload, bytes
and capability; a call not answered `Ok` left every table and every ring as they
were. -/
structure Conserved (w : World ι κ β) (as : List (ι × Call)) : Prop where
  placed : ∀ pre post, as = pre ++ post →
    Relocates (start w).contents (exec step (start w) pre).contents ∧
    (∀ cap, (∃! p, (start w).contents p = some cap) →
      ∃! p, (exec step (start w) pre).contents p = some cap) ∧
    ∀ c s, (exec step (start w) pre).accepted c s =
      (exec step (start w) pre).delivered c s ++ (exec step (start w) pre).ring c s
  answered : ∀ pre a post, as = pre ++ a :: post → Delivers (exec step (start w) pre) a
  refused : ∀ pre a post, as = pre ++ a :: post →
    ((exec step (start w) pre).reply a).status ≠ .ok →
      Unchanged (exec step (start w) pre) ((exec step (start w) pre).step a)

/-- No call of the run receives a capability into a full table. -/
def NeverDrops (w : World ι κ β) (as : List (ι × Call)) : Prop :=
  Guarded step (fun g a => ¬ (g.world.view a.1).Drops a.2) (start w) as

/-- Along a run that never drops, the invariant and the relocation. -/
theorem exec_conserving {w : World ι κ β} (hw : ∀ t, Sound (w.tables t)) (as : List (ι × Call))
    (hg : NeverDrops w as) : Conserving (start w) (exec step (start w) as) := by
  refine exec_guarded (P := Conserving (start w)) ?_ as hg ⟨inv_start hw, .refl _⟩
  intro g a hd hg
  rcases step_cases hg.inv a with hdrop | ⟨hc, -⟩
  · exact absurd hdrop hd
  · exact ⟨hc.inv, hg.moved.trans hc.moved⟩

theorem conserved_of_neverDrops {w : World ι κ β} (hw : ∀ t, Sound (w.tables t))
    {as : List (ι × Call)} (hg : NeverDrops w as) : Conserved w as := by
  have hcase : ∀ pre a post, as = pre ++ a :: post → Delivers (exec step (start w) pre) a ∧
      (((exec step (start w) pre).reply a).status ≠ .ok →
        Unchanged (exec step (start w) pre) ((exec step (start w) pre).step a)) := by
    rintro pre a post rfl
    obtain ⟨hpre, hd, -⟩ := guarded_append.mp hg
    rcases step_cases (exec_conserving hw pre hpre).inv a with hdrop | ⟨-, hcase⟩
    · exact absurd hdrop hd
    · exact hcase
  refine ⟨?_, fun pre a post has => (hcase pre a post has).1, fun pre a post has => (hcase pre a post has).2⟩
  rintro pre post rfl
  have hpre := exec_conserving hw pre (guarded_append.mp hg).1
  exact ⟨hpre.moved, fun cap hcap => hpre.moved.existsUnique hcap, hpre.inv.fifo⟩

theorem Conserved.init {w : World ι κ β} {as bs : List (ι × Call)} (h : Conserved w (as ++ bs)) :
    Conserved w as := by
  refine ⟨?_, ?_, ?_⟩
  · rintro pre post rfl
    exact h.placed pre (post ++ bs) (by simp)
  · rintro pre a post rfl
    exact h.answered pre a (post ++ bs) (by simp)
  · rintro pre a post rfl hr
    exact h.refused pre a (post ++ bs) (by simp) hr

/-- A dropping call changes a ring without answering `Ok`, so the run up to it
conserves nothing. -/
theorem neverDrops_of_conserved {w : World ι κ β} (hw : ∀ t, Sound (w.tables t))
    (as : List (ι × Call)) (h : Conserved w as) : NeverDrops w as := by
  induction as using List.reverseRecOn with
  | nil => trivial
  | append_singleton as a ih =>
      have hpre := ih h.init
      refine guarded_append.mpr ⟨hpre, ?_, trivial⟩
      intro hdrop
      obtain ⟨hr, hch⟩ := step_of_drops (exec_conserving hw as hpre).inv hdrop
      exact hch (h.refused as a [] rfl hr)

def endpointObject (s : Side) : Object Unit Nat := ⟨some ((), s), 0⟩

def senderTable : CapTable (Object Unit Nat) :=
  (((withCapacity 2).alloc Rights.WRITE (endpointObject .zero)).2.alloc
    Rights.TRANSFER ⟨none, 7⟩).2

def receiverTable (cap : Nat) : CapTable (Object Unit Nat) :=
  ((withCapacity cap).alloc Rights.READ (endpointObject .one)).2

def pairWorld (cap : Nat) : World Bool Unit Nat :=
  ⟨fun t => if t then receiverTable cap else senderTable, fun _ => Channel.create 4⟩

theorem pairWorld_sound (cap : Nat) (t : Bool) : Sound ((pairWorld cap).tables t) := by
  cases t with
  | true => exact (alloc_change _ _ _).sound (sound_withCapacity cap)
  | false => exact (alloc_change _ _ _).sound ((alloc_change _ _ _).sound (sound_withCapacity 2))

/-- The sender moves its capability into the channel; the receiver receives. -/
def handOver : List (Bool × Call) :=
  [(false, .send (Handle.new 1 0) 42 (Handle.new 1 1).raw), (true, .recv (Handle.new 1 0))]

example : (exec step (start (pairWorld 2)) [handOver[0]]).reply handOver[1] =
    ⟨.ok, 42, (Handle.new 1 1).raw, 0, []⟩ := by decide

end Traced

end Yuva.Ipc
