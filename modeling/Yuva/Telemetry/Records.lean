/-
# `Yuva.Telemetry.Records` — the records of fixed width

Four records of `tb-encode` are laid out field by field at fixed offsets, all little-endian:

    exittel.rs     kind 1 | class 1 | bucket 1 | vmid 2 | count 8 | time 8
    tpsched.rs     frame_seq 8 | slot 1 | vmid_from 2 | vmid_to 2 | t_logical 8
    conductor.rs   turn 1 | role 1 | organ 1 | verdict 1 | organ_calls 2 | t_logical 8
    recall.rs      rank 2 | id 8 | score 8

Each encoder refuses a buffer without room and leaves it alone; each decoder reads the first
bytes of a buffer that is long enough.  The decoder of the exit record refuses an unknown class
tag besides; the others look at no byte's value, so that a scheduling decision with slot 7 or a
conductor's decision in role 9 is decoded like any other.

**Proved here.**  Every one of them is the exact inverse of its encoder (`records_inverse`).
-/
import Yuva.El2.Rungs
import Yuva.Lib.Layout
import Yuva.Mem.Canonical

namespace Yuva

open Yuva.Bytes Yuva.Layout
open Yuva.Mem.Exp (readWord readWord_of_slice)

/-- What a decoder returns that looks at the length only. -/
theorem guarded_eq_some {R : Type} {n k : Nat} {x r : R} :
    (if n < k then none else some x) = some r ↔ k ≤ n ∧ True ∧ x = r := by
  split
  case isTrue hshort => simp [Nat.not_le.mpr hshort]
  case isFalse hshort => simp [Nat.not_lt.mp hshort]

/-- A field of two bytes, and one of eight. -/
theorem half_cut {buf : List UInt8} {off : Nat} {x : BitVec 16} (h : off + 2 ≤ buf.length) :
    le 2 x.toNat = slice buf off 2 ↔ readWord 16 2 buf off = x := word_cut rfl h

theorem long_cut {buf : List UInt8} {off : Nat} {x : BitVec 64} (h : off + 8 ≤ buf.length) :
    le 8 x.toNat = slice buf off 8 ↔ readWord 64 8 buf off = x := word_cut rfl h

/-! ## Exits -/

namespace Exittel

open El2 (ExitClass)

def N_CLASSES : Nat := 6
def N_BUCKETS : Nat := 16

def classTag : ExitClass → UInt8
  | .stageTwoAbort => 0
  | .hvc => 1
  | .smc => 2
  | .sys64 => 3
  | .wfx => 4
  | .undef => 5

def classFromTag (tag : UInt8) : Option ExitClass :=
  if tag = 0 then some .stageTwoAbort
  else if tag = 1 then some .hvc
  else if tag = 2 then some .smc
  else if tag = 3 then some .sys64
  else if tag = 4 then some .wfx
  else if tag = 5 then some .undef
  else none

@[simp] theorem classFromTag_classTag (c : ExitClass) : classFromTag (classTag c) = some c := by
  cases c <;> rfl

structure ExitTelemetryRecord where
  kind : UInt8
  exitClass : UInt8
  bucket : UInt8
  vmid : BitVec 16
  countInBucket : BitVec 64
  logicalTime : BitVec 64
deriving DecidableEq

def EXITTEL_CANON_LEN : Nat := 1 + 1 + 1 + 2 + 8 + 8

def OFF_KIND : Nat := 0
def OFF_CLASS : Nat := 1
def OFF_BUCKET : Nat := 2
def OFF_VMID : Nat := 3
def OFF_COUNT : Nat := 5
def OFF_TIME : Nat := 13

def canonFields (r : ExitTelemetryRecord) : List (List UInt8) :=
  [[r.kind], [r.exitClass], [r.bucket], le 2 r.vmid.toNat, le 8 r.countInBucket.toNat, le 8 r.logicalTime.toNat]

def canon {n : Nat} (r : ExitTelemetryRecord) (out : Block n) : Nat × Block n := overwrite (canonFields r).flatten out

/-- Too short, or of a class there is not. -/
def decode (buf : List UInt8) : Option ExitTelemetryRecord :=
  if buf.length < EXITTEL_CANON_LEN then none
  else (classFromTag (buf.getD OFF_CLASS 0)).map fun _ =>
    { kind := buf.getD OFF_KIND 0
      exitClass := buf.getD OFF_CLASS 0
      bucket := buf.getD OFF_BUCKET 0
      vmid := readWord 16 2 buf OFF_VMID
      countInBucket := readWord 64 8 buf OFF_COUNT
      logicalTime := readWord 64 8 buf OFF_TIME }

/-- The class of the record is one of the six. -/
def Known (r : ExitTelemetryRecord) : Prop := (classFromTag r.exitClass).isSome

def widths : List Nat := [1, 1, 1, 2, 8, 8]

/-- The fields, each read in its place. -/
def fieldsAt (buf : List UInt8) : ExitTelemetryRecord where
  kind := buf.getD OFF_KIND 0
  exitClass := buf.getD OFF_CLASS 0
  bucket := buf.getD OFF_BUCKET 0
  vmid := readWord 16 2 buf OFF_VMID
  countInBucket := readWord 64 8 buf OFF_COUNT
  logicalTime := readWord 64 8 buf OFF_TIME

theorem decode_eq_some {buf : List UInt8} {r : ExitTelemetryRecord} : decode buf = some r ↔
    EXITTEL_CANON_LEN ≤ buf.length ∧ Known r ∧ fieldsAt buf = r := by
  rw [decode, Known]
  split
  case isTrue hshort => simp [Nat.not_le.mpr hshort]
  case isFalse hshort =>
    rw [Option.map_eq_some_iff]
    constructor
    · rintro ⟨c, hc, rfl⟩
      exact ⟨Nat.not_lt.mp hshort, Option.isSome_of_eq_some hc, rfl⟩
    · rintro ⟨-, hknown, rfl⟩
      obtain ⟨c, hc⟩ := Option.isSome_iff_exists.mp hknown
      exact ⟨c, hc, rfl⟩

theorem reads : Reads widths Known canonFields decode :=
  .of_read fieldsAt (fun _ => rfl) (fun _ _ => decode_eq_some) fun buf r hlen => by
    have hlen : 21 ≤ buf.length := hlen
    cases r
    simp (disch := omega) only [canonFields, cuts, widths, List.cons.injEq, and_true, Nat.zero_add, Nat.reduceAdd,
      byte_cut, half_cut, long_cut, fieldsAt, ExitTelemetryRecord.mk.injEq, OFF_KIND, OFF_CLASS, OFF_BUCKET, OFF_VMID,
      OFF_COUNT, OFF_TIME]

end Exittel

/-! ## Slots -/

namespace Tpsched

open El2 (SchedDecision)

def SCHED_CANON_LEN : Nat := 8 + 1 + 2 + 2 + 8

def OFF_FRAME_SEQ : Nat := 0
def OFF_SLOT : Nat := 8
def OFF_VMID_FROM : Nat := 9
def OFF_VMID_TO : Nat := 11
def OFF_TLOGICAL : Nat := 13

def canonFields (r : SchedDecision) : List (List UInt8) :=
  [le 8 r.frameSeq.toNat, [r.slot], le 2 r.vmidFrom.toNat, le 2 r.vmidTo.toNat, le 8 r.tLogical.toNat]

def canon {n : Nat} (r : SchedDecision) (out : Block n) : Nat × Block n := overwrite (canonFields r).flatten out

def decode (buf : List UInt8) : Option SchedDecision :=
  if buf.length < SCHED_CANON_LEN then none
  else some
    { frameSeq := readWord 64 8 buf OFF_FRAME_SEQ
      slot := buf.getD OFF_SLOT 0
      vmidFrom := readWord 16 2 buf OFF_VMID_FROM
      vmidTo := readWord 16 2 buf OFF_VMID_TO
      tLogical := readWord 64 8 buf OFF_TLOGICAL }

def widths : List Nat := [8, 1, 2, 2, 8]

theorem reads : Reads widths (fun _ => True) canonFields decode :=
  .of_read _ (fun _ => rfl) (fun _ _ => guarded_eq_some) fun buf r hlen => by
    have hlen : 21 ≤ buf.length := hlen
    cases r
    simp (disch := omega) only [canonFields, cuts, widths, List.cons.injEq, and_true, Nat.zero_add, Nat.reduceAdd,
      byte_cut, half_cut, long_cut, SchedDecision.mk.injEq, OFF_FRAME_SEQ, OFF_SLOT, OFF_VMID_FROM,
      OFF_VMID_TO, OFF_TLOGICAL]

end Tpsched

/-! ## Turns -/

namespace Conduct

/-- One turn of the conductor: tags for the role, the organ and the verdict. -/
structure ConductDecision where
  turn : UInt8
  role : UInt8
  organ : UInt8
  verdict : UInt8
  organCalls : BitVec 16
  tLogical : BitVec 64
deriving DecidableEq

def CONDUCT_CANON_LEN : Nat := 1 + 1 + 1 + 1 + 2 + 8

def OFF_TURN : Nat := 0
def OFF_ROLE : Nat := 1
def OFF_ORGAN : Nat := 2
def OFF_VERDICT : Nat := 3
def OFF_ORGAN_CALLS : Nat := 4
def OFF_TLOGICAL : Nat := 6

def canonFields (r : ConductDecision) : List (List UInt8) :=
  [[r.turn], [r.role], [r.organ], [r.verdict], le 2 r.organCalls.toNat, le 8 r.tLogical.toNat]

def canon {n : Nat} (r : ConductDecision) (out : Block n) : Nat × Block n := overwrite (canonFields r).flatten out

def decode (buf : List UInt8) : Option ConductDecision :=
  if buf.length < CONDUCT_CANON_LEN then none
  else some
    { turn := buf.getD OFF_TURN 0
      role := buf.getD OFF_ROLE 0
      organ := buf.getD OFF_ORGAN 0
      verdict := buf.getD OFF_VERDICT 0
      organCalls := readWord 16 2 buf OFF_ORGAN_CALLS
      tLogical := readWord 64 8 buf OFF_TLOGICAL }

def widths : List Nat := [1, 1, 1, 1, 2, 8]

theorem reads : Reads widths (fun _ => True) canonFields decode :=
  .of_read _ (fun _ => rfl) (fun _ _ => guarded_eq_some) fun buf r hlen => by
    have hlen : 14 ≤ buf.length := hlen
    cases r
    simp (disch := omega) only [canonFields, cuts, widths, List.cons.injEq, and_true, Nat.zero_add, Nat.reduceAdd,
      byte_cut, half_cut, long_cut, ConductDecision.mk.injEq, OFF_TURN, OFF_ROLE, OFF_ORGAN,
      OFF_VERDICT, OFF_ORGAN_CALLS, OFF_TLOGICAL]

end Conduct

/-! ## Hits -/

namespace Recall

structure RankedHit where
  rank : BitVec 16
  id : BitVec 64
  /-- Two's complement. -/
  score : BitVec 64
deriving DecidableEq

def HIT_CANON_LEN : Nat := 18

def hitFields (r : RankedHit) : List (List UInt8) := [le 2 r.rank.toNat, le 8 r.id.toNat, le 8 r.score.toNat]

def hitCanon {n : Nat} (r : RankedHit) (out : Block n) : Nat × Block n := overwrite (hitFields r).flatten out

def hitDecode (buf : List UInt8) : Option RankedHit :=
  if buf.length < HIT_CANON_LEN then none
  else some { rank := readWord 16 2 buf 0, id := readWord 64 8 buf 2, score := readWord 64 8 buf 10 }

def widths : List Nat := [2, 8, 8]

theorem reads : Reads widths (fun _ => True) hitFields hitDecode :=
  .of_read _ (fun _ => rfl) (fun _ _ => guarded_eq_some) fun buf r hlen => by
    have hlen : 18 ≤ buf.length := hlen
    cases r
    simp (disch := omega) only [hitFields, cuts, widths, List.cons.injEq, and_true, Nat.zero_add, Nat.reduceAdd,
      half_cut, long_cut, RankedHit.mk.injEq]

end Recall

theorem guarded_eq_none {R : Type} {n k : Nat} {x : R} : (if n < k then none else some x) = none ↔ n < k := by
  simp

/-- The four codecs: each decoder is the exact inverse of its encoder, and what it refuses is a
buffer that is too short, or of a class there is not. -/
theorem records_inverse :
    Inverse Exittel.EXITTEL_CANON_LEN Exittel.Known Exittel.canon Exittel.decode ∧
      Inverse Tpsched.SCHED_CANON_LEN (fun _ => True) Tpsched.canon Tpsched.decode ∧
      Inverse Conduct.CONDUCT_CANON_LEN (fun _ => True) Conduct.canon Conduct.decode ∧
      Inverse Recall.HIT_CANON_LEN (fun _ => True) Recall.hitCanon Recall.hitDecode ∧
      (∀ buf, Exittel.decode buf = none ↔ buf.length < Exittel.EXITTEL_CANON_LEN ∨
        Exittel.classFromTag (buf.getD Exittel.OFF_CLASS 0) = none) ∧
      (∀ buf, Tpsched.decode buf = none ↔ buf.length < Tpsched.SCHED_CANON_LEN) ∧
      (∀ buf, Conduct.decode buf = none ↔ buf.length < Conduct.CONDUCT_CANON_LEN) ∧
      ∀ buf, Recall.hitDecode buf = none ↔ buf.length < Recall.HIT_CANON_LEN := by
  refine ⟨Exittel.reads.inverse, Tpsched.reads.inverse, Conduct.reads.inverse, Recall.reads.inverse, fun buf => ?_,
    fun _ => guarded_eq_none, fun _ => guarded_eq_none, fun _ => guarded_eq_none⟩
  rw [Exittel.decode]
  split
  case isTrue hshort => simp [hshort]
  case isFalse hshort => simp [hshort]

end Yuva
