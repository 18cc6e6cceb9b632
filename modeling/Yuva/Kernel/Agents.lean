/-
# `Yuva.Kernel.Agents` — the agent registry and its pairwise facades

`tb-hal/src/lib.rs`: an agent is a handle table and an address space; the facades below
find two agents, or one, in the registry and work on their tables, on the heap behind
them and on physical memory:

    agent_channel_connect   one channel, an endpoint into each of two tables
    agent_block_create      one block of frames, a handle into each of two tables
    agent_block_map         the pages of a block into the agent's own space
    agent_block_unmap       every recorded mapping down, the frames back to the allocator

An agent's table is one that `HandleTable` operations can leave behind, of the capacity
`agent_spawn` gives it.  A frame address in a block is a 64-bit word, a table's frame is a
number; `Yuva.Mmu` keeps both below `2^48`.
-/
import Yuva.Kernel.System
import Yuva.Mmu.Paging
import Yuva.Pmm.Run

namespace Yuva.Kernel

open Yuva.Caps CapTable Yuva.Ipc Yuva.Blocks Yuva.Mmu

def MAX_TASKS : Nat := 12

/-- The capacity `agent_spawn` gives a table. -/
def AGENT_CAPACITY : Nat := 48

structure Agent where
  table : CapTable Obj
  space : Nat
  sound : Sound table
  cap : table.cap = AGENT_CAPACITY

/-- The agent `agent_spawn` installs: an empty table over an address space. -/
def Agent.spawned (root : Nat) : Agent := ⟨withCapacity AGENT_CAPACITY, root, sound_withCapacity _, rfl⟩

/-- The agent with its table changed by one table operation. -/
def Agent.setTable (a : Agent) {t : CapTable Obj} (h : Change a.table t) : Agent :=
  { a with table := t, sound := h.sound a.sound, cap := h.cap_eq.trans a.cap }

theorem mint_change (p : Proc) (rights : Rights) (what : Payload) : Change p.table (p.mint rights what).2.table :=
  alloc_change p.table rights (what.object p.heap.next)

/-- The registry, the heap, and physical memory. -/
structure Agents where
  slot : Nat → Option Agent
  heap : Heap
  phys : Phys

/-! ## Blocks over frames -/

/-- Zero on handout, word by word. -/
def zeroFrame (p : Phys) (pa : Nat) : Phys := p.zeroTable pa

/-- The loop of `Block::create`; out of frames, it frees the ones it took. -/
def takeFrames : Nat → List Nat → Phys → Option (List Nat) × Phys
  | 0, frames, p => (some frames, p)
  | n + 1, frames, p =>
      match p.frameAlloc with
      | some (pa, p) => takeFrames n (frames ++ [pa]) (zeroFrame p pa)
      | none => (none, frames.foldl Phys.frameFree p)

/-- `base_va + i * 0x1000`, in 64 bits. -/
def pageVa (baseVa : BitVec 64) (i : Nat) : Nat := (baseVa + BitVec.ofNat 64 (i * 0x1000)).toNat

/-- The loop of `agent_block_map`, from page `i` on. -/
def mapPages (rootPa : Nat) (baseVa : BitVec 64) (writable : Bool) : Nat → List (BitVec 64) → Phys → Bool × Phys
  | _, [], p => (true, p)
  | i, frame :: frames, p =>
      match p.mapInRoot rootPa (pageVa baseVa i) frame.toNat writable with
      | (true, p) => mapPages rootPa baseVa writable (i + 1) frames p
      | (false, p) => (false, p)

/-- The inner loop of `agent_block_unmap`. -/
def unmapPages (rootPa : Nat) (baseVa : BitVec 64) (n : Nat) (p : Phys) : Phys :=
  (List.range n).foldl (fun p i => (p.unmapInRoot rootPa (pageVa baseVa i)).2) p

/-- The outer loop. -/
def unmapMembers (members : List (BitVec 64 × BitVec 64 × Bool)) (n : Nat) (p : Phys) : Phys :=
  members.foldl (fun p m => unmapPages m.1.toNat m.2.1 n p) p

/-- A live block behind a handle, and the handle's rights. -/
def blockOf (t : CapTable Obj) (heap : Heap) (h : Handle) : Except SysStatus (Rights × Nat) :=
  match t.live h with
  | .error e => .error e
  | .ok i =>
      match t.objectAt i with
      | none => .error .stale
      | some o =>
          match o.body.block with
          | none => .error .badCap
          | some cell => if (heap.blocks cell).isDead then .error .stale else .ok (t.rightsAt i, cell)

namespace Agents

/-- Mint into the table of the agent in slot `i`, if there is one. -/
def mint (s : Agents) (i : Nat) (rights : Rights) (what : Payload) : Option Handle × Agents :=
  match s.slot i with
  | none => (none, s)
  | some a =>
      (((⟨a.table, s.heap⟩ : Proc).mint rights what).1,
        { s with
          slot := Function.update s.slot i (some (a.setTable (mint_change ⟨a.table, s.heap⟩ rights what)))
          heap := ((⟨a.table, s.heap⟩ : Proc).mint rights what).2.heap })

/-- Mint into one table, then into the other; what a failure leaves is what the first did. -/
def mintPair (s : Agents) (a b : Nat) (ra rb : Rights) (wa wb : Payload) : Option (Handle × Handle) × Agents :=
  match s.mint a ra wa with
  | (none, s) => (none, s)
  | (some ha, s) =>
      match s.mint b rb wb with
      | (none, s) => (none, s)
      | (some hb, s) => (some (ha, hb), s)

def epRights : Rights := Rights.READ.union Rights.WRITE |>.union Rights.TRANSFER

def agentChannelConnect (s : Agents) (a b bound : Nat) : Option (Handle × Handle) × Agents :=
  if a ≥ MAX_TASKS ∨ b ≥ MAX_TASKS ∨ a = b then (none, s)
  else
    let ch := s.heap.next
    let s := { s with heap :=
      { s.heap with chans := Function.update s.heap.chans ch (Channel.create bound), next := ch + 1 } }
    s.mintPair a b epRights epRights (.endpoint ch .zero) (.endpoint ch .one)

/-- What the owner of a block holds; a plain member holds no `REVOKE`. -/
def ownerRights : Rights :=
  Rights.READ.union Rights.WRITE |>.union Rights.TRANSFER |>.union Rights.DUP |>.union Rights.REVOKE

def memberRights : Rights := Rights.READ.union Rights.WRITE

def agentBlockCreate (s : Agents) (a b nPages : Nat) : Option (Handle × Handle) × Agents :=
  if a ≥ MAX_TASKS ∨ b ≥ MAX_TASKS ∨ a = b then (none, s)
  else
    match takeFrames nPages [] s.phys with
    | (none, p) => (none, { s with phys := p })
    | (some frames, p) =>
        let cell := s.heap.next
        let blk := Block.create (frames.map (BitVec.ofNat 64))
        let s := { s with
          heap := { s.heap with blocks := Function.update s.heap.blocks cell blk, next := cell + 1 }
          phys := p }
        s.mintPair a b ownerRights memberRights (.block cell) (.block cell)

def setBlock (s : Agents) (cell : Nat) (b : Block) : Agents :=
  { s with heap := { s.heap with blocks := Function.update s.heap.blocks cell b } }

def agentBlockMap (s : Agents) (t : Nat) (h : Handle) (wantWritable : Bool) (baseVa : BitVec 64) :
    Option (SysStatus × BitVec 64) × Agents :=
  if t ≥ MAX_TASKS then (none, s)
  else
    match s.slot t with
    | none => (none, s)
    | some ap =>
        match blockOf ap.table s.heap h with
        | .error e => (some (e, 0), s)
        | .ok (rights, cell) =>
            if !rights.contains Rights.READ then (some (.denied, 0), s)
            else
              let blk := s.heap.blocks cell
              let writable := wantWritable && rights.contains Rights.WRITE
              match mapPages ap.space baseVa writable 0 blk.frames s.phys with
              | (false, p) => (some (.noMem, 0), { s with phys := p })
              | (true, p) =>
                  (some (.ok, baseVa),
                    { s with phys := p }.setBlock cell (blk.recordMember (BitVec.ofNat 64 ap.space) baseVa writable))

def agentBlockUnmap (s : Agents) (t : Nat) (h : Handle) : Option (SysStatus × Nat) × Agents :=
  if t ≥ MAX_TASKS then (none, s)
  else
    match s.slot t with
    | none => (none, s)
    | some ap =>
        match blockOf ap.table s.heap h with
        | .error e => (some (e, 0), s)
        | .ok (rights, cell) =>
            if !rights.contains Rights.REVOKE then (some (.denied, 0), s)
            else
              let blk := s.heap.blocks cell
              let p := unmapMembers blk.members blk.nPages s.phys
              let p := (blk.frames.map BitVec.toNat).foldl Phys.frameFree p
              (some (.ok, blk.nPages),
                { s with
                  phys := p
                  slot := Function.update s.slot t (some (ap.setTable (revoke_change ap.table h))) }.setBlock cell
                    blk.kill)

end Agents

/-! ## The free stack is the allocator's -/

section
variable {sink : Pmm.RegionSink} {w : Pmm.World} {stack : List Nat}

/-- The top of the linked stack. -/
theorem head_eq (h : Pmm.Inv sink w stack) : w.st.head = stack.headD 0 := by
  have hlinked := h.linked
  cases stack with
  | nil => exact hlinked
  | cons f rest => exact hlinked.1

theorem frameAlloc_refines (h : Pmm.Inv sink w stack) :
    (⟨w.mem, stack⟩ : Phys).frameAlloc = (w.st.alloc w.mem).map fun r => (r.1, ⟨w.mem, stack.tail⟩) := by
  cases halloc : w.st.alloc w.mem with
  | none =>
      have hnil : stack = [] := by
        rw [Pmm.PmmState.alloc] at halloc
        split at halloc
        · next hzero => exact h.linked.eq_nil_iff.mpr hzero
        · cases halloc
      rw [hnil]
      rfl
  | some r =>
      obtain ⟨pa, st⟩ := r
      obtain ⟨rest, rfl, -⟩ := h.alloc halloc
      rfl

theorem frameFree_refines (h : Pmm.Inv sink w stack)
    (hseed : (Pmm.seedFrames sink.usable sink.reserved).Nodup) {pa : Nat} (hpa : pa ∈ w.live) :
    (⟨w.mem, stack⟩ : Phys).frameFree pa = ⟨(w.st.free w.mem pa).2.2, pa :: stack⟩ ∧
      ((w.st.free w.mem pa).1 = true ∧
        Pmm.Inv sink ⟨(w.st.free w.mem pa).2.1, (w.st.free w.mem pa).2.2, w.live.erase pa⟩ (pa :: stack)) := by
  rw [h.free_live hseed hpa]
  refine ⟨?_, rfl, h.give_back hseed hpa⟩
  rw [Phys.frameFree, ← head_eq h]

end

end Yuva.Kernel
