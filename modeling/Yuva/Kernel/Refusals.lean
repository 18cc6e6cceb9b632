/-
# `Yuva.Kernel.Refusals` — what a refused call leaves behind

A dispatched call that answers `Denied`, `Stale`, `BadCap` or `BadMethod` says that it
was not carried out.  Arm by arm, the statuses a branch can answer decide what it may have
written: the branches that place, pop, detach or append answer `Ok`, `ObjFull`,
`WouldBlock`, `PeerClosed` or `NoMem`, and the branches of the four refusals leave the
table, the channel cores and the blocks as they found them.

    dispatch        the gate, then the arm            (`dispatch_authority`)
    channel arms    a refused call is no call         (`View.call_refused`)
    block arms      only a swap that won appends      (`onBlock_framed`)
    memory arms     write the substrate only          (`onMem_framed`, `recallArm_framed`)

The substrate is not among what a refusal leaves: see `Yuva.Kernel.Retries`.
-/
import Yuva.Kernel.System

namespace Yuva.Ipc

open Yuva.Caps CapTable

/-- The statuses that say a call was not carried out. -/
def Refused (st : SysStatus) : Prop := st = .denied ∨ st = .stale ∨ st = .badCap ∨ st = .badMethod

instance : DecidablePred Refused := fun _ => inferInstanceAs (Decidable (_ ∨ _ ∨ _ ∨ _))

theorem not_refused_ok : ¬ Refused .ok := by decide

theorem not_refused_objFull : ¬ Refused .objFull := by decide

theorem not_refused_fault : ¬ Refused .fault := by decide

theorem not_refused_wouldBlock : ¬ Refused .wouldBlock := by decide

variable {κ β : Type*} [DecidableEq κ]

namespace View

theorem parkAndEnqueue_refused {v : View κ β} {c : κ} {s : Side} {payload capRaw : BitVec 64}
    {bytes : Option (List UInt8)} (h : Refused (v.parkAndEnqueue c s payload capRaw bytes).1.status) :
    (v.parkAndEnqueue c s payload capRaw bytes).2 = v := by
  rcases park_cases v c capRaw with ⟨e, -, hp⟩ | ⟨t', hp, -⟩
  · rw [parkAndEnqueue, hp]
  · rw [parkAndEnqueue, hp] at h
    exact absurd h not_refused_ok

/-- A message that was popped is answered `Ok` or `ObjFull`. -/
theorem popAndAttach_not_refused (v : View κ β) (c : κ) (s : Side) (m : Message (Object κ β))
    (rest : List (Message (Object κ β))) (len : Nat) (copied : List UInt8) :
    ¬ Refused (v.popAndAttach c s m rest len copied).1.status := by
  rw [popAndAttach]
  split
  · exact not_refused_ok
  · split
    · exact not_refused_ok
    · exact not_refused_objFull

theorem chanSend_refused {v : View κ β} {ep : Handle} {payload capRaw : BitVec 64}
    (h : Refused (v.chanSend ep payload capRaw).1.status) : (v.chanSend ep payload capRaw).2 = v := by
  rw [chanSend] at h ⊢
  split
  · rfl
  · next c s he =>
      rw [he] at h
      dsimp only at h ⊢
      split
      · rfl
      · next hopen =>
          rw [if_neg hopen] at h
          split
          · rfl
          · next hroom =>
              rw [if_neg hroom] at h
              exact parkAndEnqueue_refused h

theorem chanSendBytes_refused {v : View κ β} {ep : Handle} {payload capRaw : BitVec 64} {len : Nat}
    {user : Uaccess} (h : Refused (v.chanSendBytes ep payload capRaw len user).1.status) :
    (v.chanSendBytes ep payload capRaw len user).2 = v := by
  rw [chanSendBytes] at h ⊢
  split
  · rfl
  · next c s he =>
      rw [he] at h
      dsimp only at h ⊢
      split
      · rfl
      · next hopen =>
          rw [if_neg hopen] at h
          split
          · rfl
          · next hroom =>
              rw [if_neg hroom] at h
              split
              · rfl
              · next hlen =>
                  rw [if_neg hlen] at h
                  split
                  · rfl
                  · next hbytes =>
                      rw [hbytes] at h
                      exact parkAndEnqueue_refused h

theorem chanRecv_refused {v : View κ β} {ep : Handle} (h : Refused (v.chanRecv ep).1.status) :
    (v.chanRecv ep).2 = v := by
  rw [chanRecv] at h ⊢
  split
  · rfl
  · next c s he =>
      rw [he] at h
      dsimp only at h ⊢
      split
      · rfl
      · next m rest hq =>
          rw [hq] at h
          exact absurd h (popAndAttach_not_refused v c s m rest 0 [])

theorem chanRecvBytes_refused {v : View κ β} {ep : Handle} {dstCap : Nat} {user : Uaccess}
    (h : Refused (v.chanRecvBytes ep dstCap user).1.status) : (v.chanRecvBytes ep dstCap user).2 = v := by
  rw [chanRecvBytes] at h ⊢
  split
  · rfl
  · next c s he =>
      rw [he] at h
      dsimp only at h ⊢
      split
      · rfl
      · next m rest hq =>
          rw [hq] at h
          dsimp only at h ⊢
          split
          · rfl
          · next hfits =>
              rw [if_neg hfits] at h
              split
              · next hbytes =>
                  rw [hbytes] at h
                  exact absurd h (popAndAttach_not_refused v c s m rest _ _)
              · next bytes hbytes =>
                  rw [hbytes] at h
                  dsimp only at h ⊢
                  split
                  · next hfault =>
                      rw [if_pos hfault] at h
                      exact absurd h not_refused_fault
                  · next hok =>
                      rw [if_neg hok] at h
                      exact absurd h (popAndAttach_not_refused v c s m rest _ _)

theorem chanClose_refused {v : View κ β} {ep : Handle} (h : Refused (v.chanClose ep).1.status) :
    (v.chanClose ep).2 = v := by
  rw [chanClose] at h ⊢
  split
  · rfl
  · next c s he =>
      rw [he] at h
      exact absurd h not_refused_ok

/-- A refused channel call is no call. -/
theorem call_refused {v : View κ β} {k : Call} (h : Refused (v.call k).1.status) : (v.call k).2 = v := by
  cases k with
  | send ep payload capRaw => exact chanSend_refused h
  | sendBytes ep payload capRaw len user => exact chanSendBytes_refused h
  | recv ep => exact chanRecv_refused h
  | recvBytes ep dstCap user => exact chanRecvBytes_refused h
  | close ep => exact chanClose_refused h

end View

end Yuva.Ipc

namespace Yuva.Kernel

open Yuva.Caps CapTable Yuva.Ipc Yuva.Mem Yuva.Blocks

/-- The caller's table, the channel cores and the blocks are as before. -/
structure Framed (p p' : Proc) : Prop where
  table : p'.table = p.table
  chans : p'.heap.chans = p.heap.chans
  blocks : p'.heap.blocks = p.heap.blocks

theorem Framed.refl (p : Proc) : Framed p p := ⟨rfl, rfl, rfl⟩

theorem framed_setMem (p : Proc) (cell : Nat) (s : MemSubstrate) : Framed p (p.setMem cell s) :=
  ⟨rfl, rfl, rfl⟩

/-- A fresh handle, or the table was full. -/
theorem handle_not_refused (h : Option Handle) : ¬ Refused (SysReturn.handle h).status := by
  cases h with
  | none => exact not_refused_objFull
  | some h => exact not_refused_ok

namespace Proc

theorem onMem_framed (p : Proc) (o : Obj) (f : MemSubstrate → SysReturn × MemSubstrate) :
    Framed p (p.onMem o f).2 := by
  rw [onMem]
  split
  · exact .refl p
  · exact framed_setMem p _ _

theorem recallArm_framed {p : Proc} {o : Obj} {a : SyscallArgs}
    (h : Refused (p.recallArm o a).1.status) : Framed p (p.recallArm o a).2 := by
  rw [recallArm] at h ⊢
  split
  · exact .refl p
  · next cell hcell =>
      rw [hcell] at h
      dsimp only at h ⊢
      split
      · exact framed_setMem p _ _
      · next id hid =>
          rw [hid] at h
          exact absurd h (handle_not_refused _)

theorem readArm_framed (p : Proc) (o : Obj) (a : SyscallArgs) : Framed p (p.readArm o a).2 := by
  rw [readArm]
  split
  · exact onMem_framed p o _
  · exact .refl p
  · exact .refl p

/-- A body that answers a refusal leaves the block. -/
theorem onBlock_framed {p : Proc} {o : Obj} {f : Yuva.Blocks.Block → SysReturn × Yuva.Blocks.Block}
    (hf : ∀ b, Refused (f b).1.status → (f b).2 = b) (h : Refused (p.onBlock o f).1.status) :
    Framed p (p.onBlock o f).2 := by
  rw [onBlock] at h ⊢
  split
  · exact .refl p
  · next cell hcell =>
      rw [hcell] at h
      dsimp only at h ⊢
      split
      · exact .refl p
      · next hlive =>
          rw [if_neg hlive] at h
          refine ⟨rfl, rfl, ?_⟩
          show Function.update p.heap.blocks cell (f (p.heap.blocks cell)).2 = p.heap.blocks
          rw [hf _ h, Function.update_eq_self]

theorem objectArm_framed {p : Proc} {m : Method} {o : Obj} {a : SyscallArgs}
    (h : Refused (p.objectArm m o a).1.status) : Framed p (p.objectArm m o a).2 := by
  cases m with
  | memWrite => exact onMem_framed p o _
  | memWriteProc => exact onMem_framed p o _
  | memRead => exact readArm_framed p o a
  | memRecall => exact recallArm_framed h
  | memConsolidate => exact onMem_framed p o _
  | blockWrite =>
      refine onBlock_framed (fun b hb => ?_) h
      -- a lost swap is `WouldBlock`, so neither answer of a swap is a refusal
      dsimp only at hb
      cases hv : (b.casWrite a.a0 a.a1 a.a2).1 with
      | none => rw [hv] at hb; exact absurd hb not_refused_wouldBlock
      | some v => rw [hv] at hb; exact absurd hb not_refused_ok
  | blockRead => exact onBlock_framed (fun _ _ => rfl) h
  | modelInvoke =>
      rw [objectArm]
      split
      · exact .refl p
      · exact .refl p
  | objectInspect | handleDup | handleNarrow | handleTransfer | handleRevoke | handleClose
  | agentSpawn | emitExternal | budgetDelegate | chanSend | chanRecv | chanClose | blockMap
  | blockUnmap | modelInvokeBytes => exact .refl p

theorem chanArm_framed {p : Proc} {k : Call} (h : Refused (p.chanArm k).1.status) :
    Framed p (p.chanArm k).2 := by
  have hstatus : Refused (p.view.call k).1.status := by
    rw [chanArm] at h
    dsimp only at h
    split at h
    · exact absurd h not_refused_ok
    · exact h
  have hview : (p.view.call k).2 = p.view := View.call_refused hstatus
  refine ⟨?_, ?_, rfl⟩
  · exact congrArg View.table hview
  · exact congrArg View.chans hview

theorem run_framed {p : Proc} {m : Method} {i : Nat} {a : SyscallArgs} (hl : p.table.live a.handle = .ok i)
    (h : Refused (p.run m i a).1.status) : Framed p (p.run m i a).2 := by
  obtain ⟨-, o, -, -, ho, -⟩ := objectAt_of_live hl
  cases m with
  | handleDup => exact absurd h (handle_not_refused _)
  | handleNarrow => exact absurd h (handle_not_refused _)
  | handleRevoke | handleClose =>
      rw [run, revoke, hl] at h
      exact absurd h not_refused_ok
  | chanSend => exact chanArm_framed h
  | chanRecv => exact chanArm_framed h
  | chanClose => exact chanArm_framed h
  | objectInspect | handleTransfer | agentSpawn | emitExternal | budgetDelegate | blockMap
  | blockUnmap | modelInvokeBytes => exact .refl p
  | modelInvoke | memWriteProc | memRecall | memConsolidate | memWrite | memRead | blockWrite
  | blockRead =>
      unfold run at h ⊢
      dsimp only at h ⊢
      rw [ho] at h ⊢
      exact objectArm_framed h

/-- `Ok` is answered behind the gate only, and a refusal leaves the table, every ring and
open flag, and the records of every block. -/
theorem dispatch_authority (p : Proc) (deny : Bool) (a : SyscallArgs) :
    ((p.dispatch deny a).1.status = .ok → ∃ m i, Method.ofNumber a.method = some m ∧
      p.table.live a.handle = .ok i ∧ (p.table.rightsAt i).contains (requiredRight m) = true) ∧
    (Method.ofNumber a.method = none → (p.dispatch deny a).1.status ≠ .ok) ∧
    (Refused (p.dispatch deny a).1.status → Framed p (p.dispatch deny a).2) := by
  rw [dispatch]
  split
  · exact ⟨fun h => SysStatus.noConfusion h, fun _ h => SysStatus.noConfusion h, fun _ => .refl p⟩
  · split
    · exact ⟨fun h => SysStatus.noConfusion h, fun _ h => SysStatus.noConfusion h, fun _ => .refl p⟩
    · next m hm =>
        refine ⟨?_, fun hnone => absurd (hm.symm.trans hnone) (Option.some_ne_none m), ?_⟩
        · intro hok
          split at hok
          · next e hl => exact absurd hok (live_error_ne_ok hl)
          · next i hl =>
              split at hok
              · cases hok
              · next hright => exact ⟨m, i, hm, hl, by simpa using hright⟩
        · intro hrefused
          split
          · exact .refl p
          · next i hl =>
              rw [hl] at hrefused
              dsimp only at hrefused ⊢
              split
              · exact .refl p
              · next hright =>
                  rw [if_neg hright] at hrefused
                  exact run_framed hl hrefused

end Proc

end Yuva.Kernel
