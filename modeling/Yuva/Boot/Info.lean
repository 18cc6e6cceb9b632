/-
# `Yuva.Boot.Info` — the boot handoff

`tb-boot/src/lib.rs`: the structures a virtual machine monitor leaves in guest memory
for the kernel, in their little-endian wire form, and the extractor of the kernel's
64-bit entry from an ELF note.

| structure     | bytes | read back by      |
|---------------|-------|-------------------|
| `TbMemRegion` | 24    | `regionsFromBytes` |
| `TbBootInfo`  | 56    | `readValidated`   |
-/
import Yuva.Lib.Bytes

namespace Yuva.Boot

open Yuva.Bytes

def TB_BOOT_MAGIC : BitVec 64 := 0x3056544F4F425900
def TB_BOOT_VERSION : BitVec 32 := 0
def TB_MEM_KIND_RAM : BitVec 32 := 1
def TB_MEM_KIND_RESERVED : BitVec 32 := 2

/-- `"YUVA"`. -/
def TB_NOTE_NAME : List UInt8 := [0x59, 0x55, 0x56, 0x41]
def TB_NOTE_TYPE_ENTRY64 : BitVec 32 := 0x59550001

inductive TbBootError where
  | badMagic (found : BitVec 64)
  | unsupportedVersion (found : BitVec 32)
  | shortBuffer (need got : Nat)
  | badNoteType (found : BitVec 32)
  | badNoteName
  deriving DecidableEq, Repr

def readU64Le (buf : List UInt8) (off : Nat) : BitVec 64 := .ofNat 64 (unle (slice buf off 8))

def readU32Le (buf : List UInt8) (off : Nat) : BitVec 32 := .ofNat 32 (unle (slice buf off 4))

theorem readU64Le_of_slice {buf : List UInt8} {off : Nat} {x : BitVec 64}
    (h : slice buf off 8 = le 8 x.toNat) : readU64Le buf off = x := by
  rw [readU64Le, h]
  exact ofNat_unle_le (by decide) x

theorem readU32Le_of_slice {buf : List UInt8} {off : Nat} {x : BitVec 32}
    (h : slice buf off 4 = le 4 x.toNat) : readU32Le buf off = x := by
  rw [readU32Le, h]
  exact ofNat_unle_le (by decide) x

/-! ## The memory map -/

inductive MemKind where
  | ram
  | reserved
  deriving DecidableEq, Repr

def MemKind.asU32 : MemKind → BitVec 32
  | .ram => TB_MEM_KIND_RAM
  | .reserved => TB_MEM_KIND_RESERVED

structure TbMemRegion where
  base : BitVec 64
  len : BitVec 64
  kind : BitVec 32
  pad : BitVec 32
  deriving DecidableEq, Repr

namespace TbMemRegion

def SIZE : Nat := 24

def new (base len : BitVec 64) (kind : MemKind) : TbMemRegion := ⟨base, len, kind.asU32, 0⟩

def fields (r : TbMemRegion) : List (List UInt8) :=
  [le 8 r.base.toNat, le 8 r.len.toNat, le 4 r.kind.toNat, le 4 r.pad.toNat]

def toBytes (r : TbMemRegion) : List UInt8 := r.fields.flatten

def readFromPrefix (bytes : List UInt8) : Except TbBootError TbMemRegion :=
  if bytes.length < SIZE then .error (.shortBuffer SIZE bytes.length)
  else .ok ⟨readU64Le bytes 0, readU64Le bytes 8, readU32Le bytes 16, readU32Le bytes 20⟩

@[simp] theorem length_toBytes (r : TbMemRegion) : r.toBytes.length = SIZE := by
  simp [toBytes, fields, SIZE]

theorem readFromPrefix_toBytes (r : TbMemRegion) (rest : List UInt8) :
    readFromPrefix (r.toBytes ++ rest) = .ok r := by
  have hlen : ¬(r.toBytes ++ rest).length < SIZE := by
    rw [List.length_append, length_toBytes]
    omega
  have field : ∀ {i : Nat} {f : List UInt8} {off n : Nat}, r.fields[i]? = some f →
      (r.fields.take i).flatten.length = off → f.length = n →
      slice (r.toBytes ++ rest) off n = f := slice_field rest
  rw [readFromPrefix, if_neg hlen,
    readU64Le_of_slice (field (i := 0) rfl (by simp [fields]) (by simp)),
    readU64Le_of_slice (field (i := 1) rfl (by simp [fields]) (by simp)),
    readU32Le_of_slice (field (i := 2) rfl (by simp [fields]) (by simp)),
    readU32Le_of_slice (field (i := 3) rfl (by simp [fields]) (by simp))]

end TbMemRegion

/-- The first `count` regions of a buffer, as far as it reaches. -/
def regionsFromBytes (bytes : List UInt8) : Nat → List TbMemRegion
  | 0 => []
  | count + 1 =>
      match TbMemRegion.readFromPrefix bytes with
      | .ok region => region :: regionsFromBytes (bytes.drop TbMemRegion.SIZE) count
      | .error _ => []

theorem regionsFromBytes_toBytes (rs : List TbMemRegion) (rest : List UInt8) :
    regionsFromBytes (rs.flatMap TbMemRegion.toBytes ++ rest) rs.length = rs := by
  induction rs with
  | nil => rfl
  | cons r rs ih =>
      have hdrop : (r.toBytes ++ (rs.flatMap TbMemRegion.toBytes ++ rest)).drop TbMemRegion.SIZE =
          rs.flatMap TbMemRegion.toBytes ++ rest := List.drop_left' r.length_toBytes
      rw [List.flatMap_cons, List.append_assoc, List.length_cons, regionsFromBytes,
        TbMemRegion.readFromPrefix_toBytes]
      simp only [hdrop, ih]

/-! ## The boot info -/

structure TbBootInfo where
  magic : BitVec 64
  version : BitVec 32
  flags : BitVec 32
  memRegionsPtr : BitVec 64
  memRegionsLen : BitVec 64
  cmdlinePtr : BitVec 64
  cmdlineLen : BitVec 64
  kernelEntry : BitVec 64
  deriving DecidableEq, Repr

namespace TbBootInfo

def SIZE : Nat := 56

def new (flags : BitVec 32) (memRegionsPtr memRegionsLen cmdlinePtr cmdlineLen kernelEntry : BitVec 64) :
    TbBootInfo :=
  ⟨TB_BOOT_MAGIC, TB_BOOT_VERSION, flags, memRegionsPtr, memRegionsLen, cmdlinePtr, cmdlineLen,
    kernelEntry⟩

def validate (info : TbBootInfo) : Except TbBootError Unit :=
  if info.magic ≠ TB_BOOT_MAGIC then .error (.badMagic info.magic)
  else if info.version ≠ TB_BOOT_VERSION then .error (.unsupportedVersion info.version)
  else .ok ()

def fields (info : TbBootInfo) : List (List UInt8) :=
  [le 8 info.magic.toNat, le 4 info.version.toNat, le 4 info.flags.toNat,
    le 8 info.memRegionsPtr.toNat, le 8 info.memRegionsLen.toNat, le 8 info.cmdlinePtr.toNat,
    le 8 info.cmdlineLen.toNat, le 8 info.kernelEntry.toNat]

def toBytes (info : TbBootInfo) : List UInt8 := info.fields.flatten

def readFromPrefix (bytes : List UInt8) : Except TbBootError TbBootInfo :=
  if bytes.length < SIZE then .error (.shortBuffer SIZE bytes.length)
  else .ok ⟨readU64Le bytes 0, readU32Le bytes 8, readU32Le bytes 12, readU64Le bytes 16,
    readU64Le bytes 24, readU64Le bytes 32, readU64Le bytes 40, readU64Le bytes 48⟩

def readValidated (bytes : List UInt8) : Except TbBootError TbBootInfo := do
  let info ← readFromPrefix bytes
  info.validate
  return info

@[simp] theorem length_toBytes (info : TbBootInfo) : info.toBytes.length = SIZE := by
  simp [toBytes, fields, SIZE]

theorem readFromPrefix_toBytes (info : TbBootInfo) (rest : List UInt8) :
    readFromPrefix (info.toBytes ++ rest) = .ok info := by
  have hlen : ¬(info.toBytes ++ rest).length < SIZE := by
    rw [List.length_append, length_toBytes]
    omega
  have field : ∀ {i : Nat} {f : List UInt8} {off n : Nat}, info.fields[i]? = some f →
      (info.fields.take i).flatten.length = off → f.length = n →
      slice (info.toBytes ++ rest) off n = f := slice_field rest
  rw [readFromPrefix, if_neg hlen,
    readU64Le_of_slice (field (i := 0) rfl (by simp [fields]) (by simp)),
    readU32Le_of_slice (field (i := 1) rfl (by simp [fields]) (by simp)),
    readU32Le_of_slice (field (i := 2) rfl (by simp [fields]) (by simp)),
    readU64Le_of_slice (field (i := 3) rfl (by simp [fields]) (by simp)),
    readU64Le_of_slice (field (i := 4) rfl (by simp [fields]) (by simp)),
    readU64Le_of_slice (field (i := 5) rfl (by simp [fields]) (by simp)),
    readU64Le_of_slice (field (i := 6) rfl (by simp [fields]) (by simp)),
    readU64Le_of_slice (field (i := 7) rfl (by simp [fields]) (by simp))]

/-- Whatever the other fields hold, the kernel accepts a handoff built by `new`. -/
theorem readValidated_new (flags : BitVec 32) (ptr len cptr clen entry : BitVec 64) (rest : List UInt8) :
    readValidated ((new flags ptr len cptr clen entry).toBytes ++ rest) =
      .ok (new flags ptr len cptr clen entry) := by
  rw [readValidated, readFromPrefix_toBytes]
  rfl

end TbBootInfo

/-! ## The entry note -/

/-- Everything from the first NUL on is ignored. -/
def noteName (name : List UInt8) : List UInt8 :=
  match name.findIdx? (· == 0) with
  | some nul => name.take nul
  | none => name

def parseEntry64Note (name : List UInt8) (noteType : BitVec 32) (desc : List UInt8) :
    Except TbBootError (BitVec 64) :=
  if noteType ≠ TB_NOTE_TYPE_ENTRY64 then .error (.badNoteType noteType)
  else if noteName name ≠ TB_NOTE_NAME then .error .badNoteName
  else if desc.length < 8 then .error (.shortBuffer 8 desc.length)
  else .ok (readU64Le desc 0)

theorem parseEntry64Note_eq_ok {name desc : List UInt8} {noteType : BitVec 32} {a : BitVec 64} :
    parseEntry64Note name noteType desc = .ok a ↔
      (noteType = TB_NOTE_TYPE_ENTRY64 ∧ noteName name = TB_NOTE_NAME ∧ 8 ≤ desc.length) ∧
        readU64Le desc 0 = a := by
  unfold parseEntry64Note
  split
  case isTrue ht => simp [ht]
  case isFalse ht =>
    split
    case isTrue hn => simp [hn]
    case isFalse hn =>
      split
      case isTrue hd => simp [Nat.not_le.mpr hd]
      case isFalse hd => simp_all

/-- The name up to the first NUL is `key` exactly when `key` is the whole name, or a NUL
follows it. -/
theorem noteName_eq_iff {name key : List UInt8} (hkey : (0 : UInt8) ∉ key) :
    noteName name = key ↔ name = key ∨ key ++ [0] <+: name := by
  unfold noteName
  cases hfind : name.findIdx? (· == 0) with
  | none =>
      have hno : (0 : UInt8) ∉ name := by
        intro hmem
        have := List.findIdx?_eq_none_iff.mp hfind 0 hmem
        simp at this
      constructor
      · exact .inl
      · rintro (h | ⟨t, rfl⟩)
        · exact h
        · simp at hno
  | some nul =>
      obtain ⟨hlt, hzero, hfirst⟩ := List.findIdx?_eq_some_iff_getElem.mp hfind
      have hcut : name = name.take nul ++ [0] ++ name.drop (nul + 1) := by
        have hz : name[nul] = 0 := by simpa using hzero
        rw [List.append_assoc, ← hz, List.singleton_append, List.getElem_cons_drop,
          List.take_append_drop]
      constructor
      · rintro rfl
        exact .inr ⟨_, hcut.symm⟩
      · rintro (rfl | ⟨t, rfl⟩)
        · exact absurd (List.mem_iff_getElem.mpr ⟨nul, hlt, by simpa using hzero⟩) hkey
        · have hnul : nul = key.length := by
            have hle : nul ≤ key.length := by
              by_contra hgt
              have := hfirst key.length (by omega)
              simp at this
            rcases Nat.lt_or_ge nul key.length with hin | hge
            · have hz : key[nul] = 0 := by
                simpa [List.getElem_append_left, hin] using hzero
              exact absurd (List.mem_iff_getElem.mpr ⟨nul, hin, hz⟩) hkey
            · omega
          simp only [hnul, List.append_assoc, List.take_left]

end Yuva.Boot
