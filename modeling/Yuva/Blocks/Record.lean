/-
# `Yuva.Blocks.Record` — the record plane of a shared block

`tb-hal/src/blocks.rs`: a block owns its frames, the list of its mappings, and an
append-only list of versioned records behind a compare-and-swap.  Versions are
stamped by one counter for the whole block, expectations are per offset, and both
reads scan the whole list.  `kill` poisons the block.

`seq` counts the records ever pushed (`Indexed.seq`), and a `Vec` of 32-byte records
ends at `isize::MAX` bytes, so `seq + 1` stays far below `2^64` and the counter is a
natural number here.

**Proved here.**  A live block is a file of versioned registers, one per offset
(`casWrite_refines`, `readLatest_refines`), and over every run the clauses a reader
of the blackboard relies on (`records_linearizable`).
-/
import Yuva.Lib.Register
import Yuva.Lib.Run
import Mathlib.Data.List.Induction

namespace Yuva.Blocks

open Yuva.Register Yuva.Run

/-- One version of a slot; `supersedes` is `0` for the first. -/
structure Rec where
  off : BitVec 64
  val : BitVec 64
  version : Nat
  supersedes : Nat
  deriving DecidableEq, Repr

structure Block where
  frames : List (BitVec 64)
  members : List (BitVec 64 × BitVec 64 × Bool)
  seq : Nat
  records : List Rec
  dead : Bool
  deriving DecidableEq, Repr

namespace Block

/-- `create`, over the frames the allocator handed out. -/
def create (frames : List (BitVec 64)) : Block := ⟨frames, [], 0, [], false⟩

def nPages (b : Block) : Nat := b.frames.length

def isDead (b : Block) : Bool := b.dead

def recordMember (b : Block) (rootPa baseVa : BitVec 64) (writable : Bool) : Block :=
  if b.dead then b else { b with members := b.members ++ [(rootPa, baseVa, writable)] }

/-- Poison the core and drop the mappings. -/
def kill (b : Block) : Block := { b with dead := true, members := [] }

def latestVersion (b : Block) (off : BitVec 64) : Nat :=
  b.records.foldl (fun ver r => if r.off = off ∧ r.version > ver then r.version else ver) 0

def casWrite (b : Block) (off val expected : BitVec 64) : Option Nat × Block :=
  if b.dead then (none, b)
  else
    let cur := b.latestVersion off
    if cur ≠ expected.toNat then (none, b)
    else
      let newVer := b.seq + 1
      (some newVer, { b with seq := newVer, records := b.records ++ [⟨off, val, newVer, cur⟩] })

/-- The scan of a read: the newest version so far and its value. -/
def scan (records : List Rec) (off : BitVec 64) : Nat × Option (BitVec 64) :=
  records.foldl (fun (acc : Nat × Option (BitVec 64)) r =>
    if r.off = off ∧ r.version ≥ acc.1 then (r.version, some r.val) else acc) (0, none)

def readLatest (b : Block) (off : BitVec 64) : Option (BitVec 64) :=
  if b.dead then none else (scan b.records off).2

/-! ## The records, by offset -/

/-- The last record at an offset. -/
def last (records : List Rec) (off : BitVec 64) : Option Rec := records.reverse.find? fun r => r.off == off

/-- The version at an offset; zero before the first write. -/
def version (records : List Rec) (off : BitVec 64) : Nat := ((last records off).map Rec.version).getD 0

theorem last_snoc (records : List Rec) (r : Rec) (off : BitVec 64) :
    last (records ++ [r]) off = if r.off = off then some r else last records off := by
  rw [last, List.reverse_concat, List.find?_cons]
  by_cases h : r.off = off
  · rw [if_pos h, beq_iff_eq.mpr h]
  · rw [if_neg h, beq_eq_false_iff_ne.mpr h]
    rfl

theorem version_snoc (records : List Rec) (r : Rec) (off : BitVec 64) :
    version (records ++ [r]) off = if r.off = off then r.version else version records off := by
  rw [version, last_snoc]
  split <;> rfl

/-- The n-th record carries the version `n + 1`. -/
def Stamps (records : List Rec) : Prop := ∀ i r, records[i]? = some r → r.version = i + 1

theorem stamps_snoc {records : List Rec} {r : Rec} :
    Stamps (records ++ [r]) ↔ Stamps records ∧ r.version = records.length + 1 := by
  constructor
  · intro h
    refine ⟨fun i r' hi => h i r' ?_, h records.length r List.getElem?_concat_length⟩
    rw [List.getElem?_append_left (List.getElem?_eq_some_iff.mp hi).1]
    exact hi
  · rintro ⟨h, hr⟩ i r' hi
    rw [List.getElem?_append] at hi
    split at hi
    · exact h i r' hi
    · next hge =>
        rw [List.getElem?_singleton] at hi
        split at hi
        · rw [← Option.some.inj hi, hr]
          omega
        · cases hi

theorem version_le {records : List Rec} (h : Stamps records) (off : BitVec 64) :
    version records off ≤ records.length := by
  induction records using List.reverseRecOn with
  | nil => exact Nat.le_refl 0
  | append_singleton records r ih =>
      obtain ⟨h, hr⟩ := stamps_snoc.mp h
      rw [version_snoc, List.length_append, List.length_singleton]
      split
      · exact Nat.le_of_eq hr
      · exact Nat.le_succ_of_le (ih h)

theorem versions_increasing {records : List Rec} (h : Stamps records) :
    (records.map Rec.version).Pairwise (· < ·) := by
  induction records using List.reverseRecOn with
  | nil => exact .nil
  | append_singleton records r ih =>
      obtain ⟨h, hr⟩ := stamps_snoc.mp h
      rw [List.map_append, List.pairwise_append]
      refine ⟨ih h, List.pairwise_singleton _ _, ?_⟩
      intro v hv w hw
      obtain ⟨r', hmem, rfl⟩ := List.mem_map.mp hv
      obtain ⟨i, hi⟩ := List.getElem?_of_mem hmem
      have hlt := (List.getElem?_eq_some_iff.mp hi).1
      rw [List.mem_singleton.mp hw, h i r' hi, hr]
      omega

/-- Both scans find the last record at the offset: every later record is newer. -/
theorem scan_eq {records : List Rec} (h : Stamps records) (off : BitVec 64) :
    records.foldl (fun ver r => if r.off = off ∧ r.version > ver then r.version else ver) 0 =
        version records off ∧
      scan records off = (version records off, (last records off).map Rec.val) := by
  induction records using List.reverseRecOn with
  | nil => exact ⟨rfl, rfl⟩
  | append_singleton records r ih =>
      obtain ⟨h, hr⟩ := stamps_snoc.mp h
      obtain ⟨hver, hscan⟩ := ih h
      have hle := version_le h off
      rw [scan] at hscan ⊢
      rw [List.foldl_concat, List.foldl_concat, hver, hscan, version_snoc, last_snoc]
      have hnewer : r.version > version records off := by omega
      by_cases hoff : r.off = off
      · simp [hoff, hnewer, Nat.le_of_lt hnewer]
      · simp [hoff]

/-- What a block keeps: the counter is the number of records, and every record names
the version it replaced. -/
structure Indexed (b : Block) : Prop where
  seq : b.seq = b.records.length
  stamps : Stamps b.records
  links : ∀ i r, b.records[i]? = some r → r.supersedes = version (b.records.take i) r.off

theorem indexed_create (frames : List (BitVec 64)) : Indexed (create frames) where
  seq := rfl
  stamps _ _ h := nomatch h
  links _ _ h := nomatch h

theorem latestVersion_eq {b : Block} (h : Indexed b) (off : BitVec 64) :
    b.latestVersion off = version b.records off := (scan_eq h.stamps off).1

theorem readLatest_eq {b : Block} (h : Indexed b) (off : BitVec 64) :
    b.readLatest off = if b.dead then none else (last b.records off).map Rec.val := by
  rw [readLatest, (scan_eq h.stamps off).2]

/-- A swap goes through exactly on a live block at the version it expects. -/
theorem casWrite_eq {b : Block} (h : Indexed b) (off val expected : BitVec 64) :
    b.casWrite off val expected =
      if b.dead = false ∧ version b.records off = expected.toNat then
        (some (b.seq + 1), ⟨b.frames, b.members, b.seq + 1,
          b.records ++ [⟨off, val, b.seq + 1, version b.records off⟩], b.dead⟩)
      else (none, b) := by
  rw [casWrite]
  dsimp only
  rw [latestVersion_eq h]
  cases hdead : b.dead with
  | true => simp
  | false =>
      by_cases hv : version b.records off = expected.toNat
      · rw [if_neg Bool.false_ne_true, if_neg (not_not.mpr hv), if_pos ⟨rfl, hv⟩]
      · rw [if_neg Bool.false_ne_true, if_pos hv, if_neg fun hand => hv hand.2]

theorem indexed_push {b : Block} (h : Indexed b) (off val : BitVec 64) :
    Indexed ⟨b.frames, b.members, b.seq + 1,
      b.records ++ [⟨off, val, b.seq + 1, version b.records off⟩], b.dead⟩ := by
  refine ⟨?_, stamps_snoc.mpr ⟨h.stamps, by rw [h.seq]⟩, ?_⟩
  · rw [List.length_append, List.length_singleton, h.seq]
  · intro i r hi
    dsimp only at hi ⊢
    rw [List.getElem?_append] at hi
    split at hi
    · next hlt =>
        rw [List.take_append_of_le_length (Nat.le_of_lt hlt)]
        exact h.links i r hi
    · next hge =>
        rw [List.getElem?_singleton] at hi
        split at hi
        · next hlast =>
            rw [← Option.some.inj hi, List.take_left' (by omega)]
        · cases hi

theorem indexed_casWrite {b : Block} (h : Indexed b) (off val expected : BitVec 64) :
    Indexed (b.casWrite off val expected).2 := by
  rw [casWrite_eq h]
  split
  · exact indexed_push h off val
  · exact h

end Block

/-! ## The registers behind a block -/

open Block

/-- One register per offset. -/
def Block.registers (b : Block) : Registers (BitVec 64) (BitVec 64) :=
  ⟨b.seq, version b.records, fun off => (last b.records off).map Rec.val⟩

theorem stamped_registers {b : Block} (h : Indexed b) : b.registers.Stamped := by
  intro off
  show version b.records off ≤ b.seq
  rw [h.seq]
  exact version_le h.stamps off

/-- A live block answers a swap as its registers do, and follows them. -/
theorem casWrite_refines {b : Block} (h : Indexed b) (hlive : b.dead = false) (off val expected : BitVec 64) :
    (b.casWrite off val expected).1 = (b.registers.cas off val expected.toNat).1 ∧
      (b.casWrite off val expected).2.registers = (b.registers.cas off val expected.toNat).2 := by
  rw [casWrite_eq h, Registers.cas]
  by_cases hv : version b.records off = expected.toNat
  · rw [if_pos ⟨hlive, hv⟩, if_pos (show b.registers.version off = _ from hv)]
    refine ⟨rfl, ?_⟩
    have hversion : version (b.records ++ [⟨off, val, b.seq + 1, version b.records off⟩]) =
        (b.registers.set off val).version := by
      funext j
      rw [version_snoc, Registers.set_version, if_congr eq_comm rfl rfl]
      rfl
    have hvalue : (fun j => (last (b.records ++ [⟨off, val, b.seq + 1, version b.records off⟩]) j).map
        Rec.val) = (b.registers.set off val).value := by
      funext j
      rw [last_snoc, Registers.set_value]
      split
      · next hj => rw [if_pos hj.symm]; rfl
      · next hj => rw [if_neg (Ne.symm hj)]; rfl
    show Registers.mk (b.seq + 1) _ _ = _
    rw [hversion, hvalue]
    rfl
  · rw [if_neg fun hand => hv hand.2, if_neg (show ¬ b.registers.version off = _ from hv)]
    exact ⟨rfl, rfl⟩

theorem readLatest_refines {b : Block} (h : Indexed b) (hlive : b.dead = false) (off : BitVec 64) :
    b.readLatest off = b.registers.value off := by
  rw [readLatest_eq h, hlive]
  rfl

/-! ## Runs -/

/-- The calls on a block. -/
inductive Op where
  | casWrite (off val expected : BitVec 64)
  | readLatest (off : BitVec 64)
  | recordMember (rootPa baseVa : BitVec 64) (writable : Bool)
  | kill
  deriving DecidableEq

def step (b : Block) : Op → Block
  | .casWrite off val expected => (b.casWrite off val expected).2
  | .readLatest _ => b
  | .recordMember rootPa baseVa writable => b.recordMember rootPa baseVa writable
  | .kill => b.kill

/-- What a successful swap published. -/
structure Commit where
  off : BitVec 64
  val : BitVec 64
  version : Nat
  deriving DecidableEq, Repr

def Rec.commit (r : Rec) : Commit := ⟨r.off, r.val, r.version⟩

def commitOf (b : Block) : Op → List Commit
  | .casWrite off val expected => ((b.casWrite off val expected).1.map fun v => ⟨off, val, v⟩).toList
  | _ => []

/-- The successful swaps of a run, in order. -/
def committed (b : Block) : List Op → List Commit
  | [] => []
  | op :: ops => commitOf b op ++ committed (step b op) ops

/-- The last swap at an offset. -/
def lastAt (commits : List Commit) (off : BitVec 64) : Option Commit :=
  commits.reverse.find? fun c => c.off == off

/-- The current version at an offset; zero before the first swap. -/
def currentAt (commits : List Commit) (off : BitVec 64) : Nat :=
  ((lastAt commits off).map Commit.version).getD 0

theorem lastAt_commits (records : List Rec) (off : BitVec 64) :
    lastAt (records.map Rec.commit) off = (last records off).map Rec.commit := by
  rw [lastAt, ← List.map_reverse, List.find?_map]
  rfl

theorem currentAt_commits (records : List Rec) (off : BitVec 64) :
    currentAt (records.map Rec.commit) off = version records off := by
  rw [currentAt, lastAt_commits, Option.map_map]
  rfl

theorem indexed_step {b : Block} (op : Op) (h : Indexed b) : Indexed (step b op) := by
  cases op with
  | casWrite off val expected => exact indexed_casWrite h off val expected
  | readLatest off => exact h
  | recordMember rootPa baseVa writable =>
      show Indexed (b.recordMember rootPa baseVa writable)
      rw [recordMember]
      split
      · exact h
      · exact ⟨h.seq, h.stamps, h.links⟩
  | kill => exact ⟨h.seq, h.stamps, h.links⟩

/-- A step appends what it commits to the records. -/
theorem records_step {b : Block} (op : Op) (h : Indexed b) :
    (step b op).records.map Rec.commit = b.records.map Rec.commit ++ commitOf b op := by
  cases op with
  | casWrite off val expected =>
      show (b.casWrite off val expected).2.records.map _ = _
      rw [commitOf, casWrite_eq h]
      split
      · exact List.map_append
      · exact (List.append_nil _).symm
  | readLatest off => exact (List.append_nil _).symm
  | recordMember rootPa baseVa writable =>
      show (b.recordMember rootPa baseVa writable).records.map _ = _ ++ []
      rw [recordMember, List.append_nil]
      split <;> rfl
  | kill => exact (List.append_nil _).symm

theorem records_exec (ops : List Op) {b : Block} (h : Indexed b) :
    (exec step b ops).records.map Rec.commit = b.records.map Rec.commit ++ committed b ops := by
  induction ops generalizing b with
  | nil => exact (List.append_nil _).symm
  | cons op ops ih =>
      rw [exec_cons, ih (indexed_step op h), records_step op h, committed, List.append_assoc]

theorem dead_step {b : Block} (op : Op) (h : Indexed b) :
    (step b op).dead = (b.dead || op == .kill) := by
  cases op with
  | casWrite off val expected =>
      show (b.casWrite off val expected).2.dead = _
      rw [casWrite_eq h]
      split <;> exact (Bool.or_false _).symm
  | readLatest off => exact (Bool.or_false _).symm
  | recordMember rootPa baseVa writable =>
      show (b.recordMember rootPa baseVa writable).dead = _
      rw [recordMember]
      split <;> exact (Bool.or_false _).symm
  | kill => exact (Bool.or_true _).symm

/-- A block is dead once a kill was among the calls, and for good. -/
theorem dead_exec (ops : List Op) {b : Block} (h : Indexed b) :
    (exec step b ops).dead = (b.dead || ops.contains .kill) := by
  induction ops generalizing b with
  | nil => exact (Bool.or_false _).symm
  | cons op ops ih =>
      rw [exec_cons, ih (indexed_step op h), dead_step op h, List.contains_cons, Bool.or_assoc,
        Bool.beq_comm]

theorem indexed_exec (ops : List Op) {b : Block} (h : Indexed b) : Indexed (exec step b ops) :=
  exec_inv (P := Indexed) (fun _ op hb => indexed_step op hb) ops h

theorem registers_step {b : Block} (op : Op) (h : Indexed b) :
    b.registers.Later (step b op).registers := by
  cases op with
  | casWrite off val expected =>
      show b.registers.Later (b.casWrite off val expected).2.registers
      cases hdead : b.dead with
      | false =>
          rw [(casWrite_refines h hdead off val expected).2]
          exact Registers.cas_later (stamped_registers h) off val expected.toNat
      | true =>
          rw [casWrite_eq h, if_neg (by rw [hdead]; exact fun hand => Bool.noConfusion hand.1)]
          exact .refl _
  | readLatest off => exact .refl _
  | recordMember rootPa baseVa writable =>
      show b.registers.Later (b.recordMember rootPa baseVa writable).registers
      rw [recordMember]
      split <;> exact .refl _
  | kill => exact .refl _

theorem registers_exec (ops : List Op) {b : Block} (h : Indexed b) :
    b.registers.Later (exec step b ops).registers :=
  exec_rel (P := Indexed) (R := fun b b' : Block => b.registers.Later b'.registers)
    (fun _ => .refl _) (fun h h' => h.trans h') (fun _ op hb => indexed_step op hb)
    (fun _ op hb => registers_step op hb) ops h

/-- Of two swaps that expect the same version at the same offset one fails. -/
theorem casWrite_once {b : Block} (h : Indexed b) {off val val' expected : BitVec 64}
    (hok : (b.casWrite off val expected).1 ≠ none) (ops : List Op) :
    ((exec step (b.casWrite off val expected).2 ops).casWrite off val' expected).1 = none := by
  have hlive : b.dead = false := by
    by_contra hdead
    rw [casWrite_eq h, if_neg fun hand => hdead hand.1] at hok
    exact hok rfl
  obtain ⟨hreply, hregs⟩ := casWrite_refines h hlive off val expected
  have hnext := indexed_casWrite h off val expected
  have hend := indexed_exec ops hnext
  have hlater := registers_exec ops hnext
  rw [hregs] at hlater
  have hspent := Registers.cas_spends (y := val') (stamped_registers h) (hreply ▸ hok) hlater
  cases hdead : (exec step (b.casWrite off val expected).2 ops).dead with
  | false => rw [(casWrite_refines hend hdead off val' expected).1, hspent]
  | true => rw [casWrite_eq hend, if_neg (by rw [hdead]; exact fun hand => Bool.noConfusion hand.1)]

/-- A refused swap changes nothing. -/
theorem casWrite_refused {b : Block} (h : Indexed b) {off val expected : BitVec 64}
    (hnone : (b.casWrite off val expected).1 = none) : (b.casWrite off val expected).2 = b := by
  rw [casWrite_eq h] at hnone ⊢
  split at hnone
  · cases hnone
  · next hlost => rw [if_neg hlost]

/-- Nothing succeeds after a kill. -/
theorem killed_refuses {b : Block} (h : Indexed b) (later : List Op) (off val expected : BitVec 64) :
    ((exec step b.kill later).casWrite off val expected).1 = none ∧
      (exec step b.kill later).readLatest off = none := by
  have hk : Indexed b.kill := indexed_step .kill h
  have hend : (exec step b.kill later).dead = true := by
    rw [dead_exec later hk]
    rfl
  rw [casWrite_eq (indexed_exec later hk), readLatest_eq (indexed_exec later hk), hend]
  exact ⟨rfl, rfl⟩

def reached (frames : List (BitVec 64)) (ops : List Op) : Block := exec step (create frames) ops

/-- The record plane after any run, in the terms of the swaps that succeeded: their
versions strictly increase; a swap succeeds exactly on a live block and at the current
version of its offset; a read returns the value of the last swap at the offset; every
record names the version it supersedes; a refused swap changes nothing; an expectation
serves one writer only; and nothing succeeds after a kill. -/
theorem records_linearizable (frames : List (BitVec 64)) (ops : List Op) :
    (reached frames ops).records.map Rec.commit = committed (create frames) ops ∧
    ((committed (create frames) ops).map Commit.version).Pairwise (· < ·) ∧
    (∀ off val expected : BitVec 64, ((reached frames ops).casWrite off val expected).1 =
      if Op.kill ∉ ops ∧ currentAt (committed (create frames) ops) off = expected.toNat then
        some ((committed (create frames) ops).length + 1) else none) ∧
    (∀ off, (reached frames ops).readLatest off =
      if Op.kill ∉ ops then (lastAt (committed (create frames) ops) off).map Commit.val else none) ∧
    (∀ i r, (reached frames ops).records[i]? = some r →
      r.supersedes = currentAt ((committed (create frames) ops).take i) r.off) ∧
    (∀ off val expected : BitVec 64, ((reached frames ops).casWrite off val expected).1 = none →
      ((reached frames ops).casWrite off val expected).2 = reached frames ops) ∧
    (∀ off val val' expected : BitVec 64, ∀ later : List Op,
      ((reached frames ops).casWrite off val expected).1 ≠ none →
      ((exec step ((reached frames ops).casWrite off val expected).2 later).casWrite off val' expected).1 =
        none) ∧
    (∀ later : List Op, ∀ off val expected : BitVec 64,
      ((exec step (reached frames ops).kill later).casWrite off val expected).1 = none ∧
        (exec step (reached frames ops).kill later).readLatest off = none) := by
  have hb : Indexed (reached frames ops) := indexed_exec ops (indexed_create frames)
  have hrec : (reached frames ops).records.map Rec.commit = committed (create frames) ops :=
    records_exec ops (indexed_create frames)
  have hdead : (reached frames ops).dead = false ↔ Op.kill ∉ ops := by
    rw [reached, dead_exec ops (indexed_create frames)]
    simp [create]
  have hlen : (committed (create frames) ops).length = (reached frames ops).seq := by
    rw [← hrec, List.length_map, hb.seq]
  refine ⟨hrec, ?_, ?_, ?_, ?_, ?_, ?_, ?_⟩
  · rw [← hrec, List.map_map]
    exact versions_increasing hb.stamps
  · intro off val expected
    have hcur := currentAt_commits (reached frames ops).records off
    rw [hrec] at hcur
    rw [casWrite_eq hb, hcur, hlen]
    by_cases hok : (reached frames ops).dead = false ∧
        version (reached frames ops).records off = expected.toNat
    · rw [if_pos hok, if_pos ⟨hdead.mp hok.1, hok.2⟩]
    · rw [if_neg hok, if_neg fun hand => hok ⟨hdead.mpr hand.1, hand.2⟩]
  · intro off
    rw [readLatest_eq hb, ← hrec, lastAt_commits, Option.map_map]
    cases hd : (reached frames ops).dead with
    | false => rw [if_pos (hdead.mp hd)]; rfl
    | true => rw [if_neg fun hk => Bool.noConfusion (hd.symm.trans (hdead.mpr hk))]; rfl
  · intro i r hi
    rw [hb.links i r hi, ← hrec, ← List.map_take, currentAt_commits]
  · intro off val expected hnone
    exact casWrite_refused hb hnone
  · intro off val val' expected later hok
    exact casWrite_once hb hok later
  · intro later off val expected
    exact killed_refuses hb later off val expected

end Yuva.Blocks
