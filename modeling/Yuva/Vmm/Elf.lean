/-
# `Yuva.Vmm.Elf` — the program headers and the entry note

`tb-vmm/src/loader.rs`, the part that reads the kernel image: `parse_phdrs` and
`find_tb_entry`, which walks the `PT_NOTE` segments for the note that carries the 64-bit
entry.  Offsets are natural numbers: a sum past `2^64` is past the end of the image too,
and both are reported as a truncated image.

The walk tests a note's name without one trailing NUL; `tb_boot::parse_entry64_note`, whose
comment says that the monitor calls it with each note, cuts the name at its first NUL.

**Proved here.**  On a note of its own segment the walk finds what `parse_entry64_note`
yields, exactly unless the name runs on behind `"YUVA\0"`; an image without such notes is
entered where the first note of that parser says (`note_parsers_agree`).
-/
import Yuva.Boot.Info

namespace Yuva.Vmm

open Yuva.Bytes Yuva.Boot

def ELFCLASS64 : UInt8 := 2
def ELFDATA2LSB : UInt8 := 1
def EM_X86_64 : Nat := 62
def PT_LOAD : Nat := 1
def PT_NOTE : Nat := 4
def EHDR_SIZE : Nat := 64
def PHDR_SIZE : Nat := 56

inductive LoaderError where
  | truncated (what : String)
  | badMagic
  | notElf64Le
  | badMachine (machine : Nat)
  | segmentOutOfFile (index : Nat)
  | badSegmentSize (index : Nat)
  | noLoadSegments
  | missingTbNote
  | guestWrite (paddr : Nat) (detail : String)
  deriving DecidableEq, Repr

/-! ## The program headers -/

/-- The bytes `[a, b)` of a buffer, if it holds them. -/
def get (b : List UInt8) (off n : Nat) : Option (List UInt8) :=
  if off + n ≤ b.length then some (slice b off n) else none

theorem get_eq_some {b s : List UInt8} {off n : Nat} :
    get b off n = some s ↔ off + n ≤ b.length ∧ slice b off n = s := by
  simp [get]

/-- A little-endian field of `n` bytes. -/
def rd (n : Nat) (b : List UInt8) (off : Nat) (what : String) : Except LoaderError Nat :=
  match get b off n with
  | some s => .ok (unle s)
  | none => .error (.truncated what)

def rdU16 : List UInt8 → Nat → String → Except LoaderError Nat := rd 2

def rdU32 : List UInt8 → Nat → String → Except LoaderError Nat := rd 4

def rdU64 : List UInt8 → Nat → String → Except LoaderError Nat := rd 8

def align4 (n : Nat) : Nat := (n + 3) / 4 * 4

structure Phdr where
  pType : Nat
  pOffset : Nat
  pPaddr : Nat
  pFilesz : Nat
  pMemsz : Nat
  deriving DecidableEq, Repr

def parsePhdr (image : List UInt8) (base : Nat) : Except LoaderError Phdr := do
  let pType ← rdU32 image base "p_type"
  let pOffset ← rdU64 image (base + 8) "p_offset"
  let pPaddr ← rdU64 image (base + 24) "p_paddr"
  let pFilesz ← rdU64 image (base + 32) "p_filesz"
  let pMemsz ← rdU64 image (base + 40) "p_memsz"
  return ⟨pType, pOffset, pPaddr, pFilesz, pMemsz⟩

def parsePhdrs (image : List UInt8) : Except LoaderError (List Phdr) := do
  if image.length < EHDR_SIZE then throw (.truncated "ELF header")
  if slice image 0 4 ≠ [0x7f, 0x45, 0x4c, 0x46] then throw .badMagic
  if image.getD 4 0 ≠ ELFCLASS64 ∨ image.getD 5 0 ≠ ELFDATA2LSB then throw .notElf64Le
  let machine ← rdU16 image 18 "e_machine"
  if machine ≠ EM_X86_64 then throw (.badMachine machine)
  let phoff ← rdU64 image 32 "e_phoff"
  let phentsize ← rdU16 image 54 "e_phentsize"
  let phnum ← rdU16 image 56 "e_phnum"
  if phentsize < PHDR_SIZE then throw (.truncated "e_phentsize")
  (List.range phnum).mapM fun i => parsePhdr image (phoff + i * phentsize)

/-! ## The note walk -/

/-- `strip_suffix(b"\0")`: the name without one trailing NUL. -/
def stripNul (name : List UInt8) : List UInt8 :=
  if name.getLast? = some 0 then name.dropLast else name

/-- What the walk does with the note at an offset. -/
inductive NoteStep where
  | stop
  | found (entry : BitVec 64)
  | next (off : Nat)
  deriving DecidableEq, Repr

def noteStep (seg : List UInt8) (off : Nat) : NoteStep :=
  let namesz := unle (slice seg off 4)
  let descsz := unle (slice seg (off + 4) 4)
  let ntype := readU32Le seg (off + 8)
  let nameOff := off + 12
  let descOff := nameOff + align4 namesz
  let next := descOff + align4 descsz
  if next > seg.length ∨ next ≤ off then .stop
  else if ntype = TB_NOTE_TYPE_ENTRY64 ∧ stripNul (slice seg nameOff namesz) = TB_NOTE_NAME ∧ descsz ≥ 8 then
    .found (readU64Le seg descOff)
  else .next next

theorem noteStep_next_gt {seg : List UInt8} {off n : Nat} (h : noteStep seg off = .next n) : off < n := by
  simp only [noteStep] at h
  split at h
  · cases h
  · split at h
    · cases h
    · cases h
      omega

def noteWalk (seg : List UInt8) (off : Nat) : Option (BitVec 64) :=
  if off + 12 ≤ seg.length then
    match _hstep : noteStep seg off with
    | .stop => none
    | .found entry => some entry
    | .next n => noteWalk seg n
  else none
termination_by seg.length - off
decreasing_by
  have := noteStep_next_gt _hstep
  omega

/-- The bytes of a `PT_NOTE` segment; the end must not overflow. -/
def noteSegment (image : List UInt8) (ph : Phdr) : Option (List UInt8) :=
  if ph.pOffset + ph.pFilesz < 2 ^ 64 then get image ph.pOffset ph.pFilesz else none

def findTbEntry (image : List UInt8) : List Phdr → Except LoaderError (Option (BitVec 64))
  | [] => .ok none
  | ph :: phdrs =>
      if ph.pType = PT_NOTE then
        match noteSegment image ph with
        | none => .error (.truncated "PT_NOTE")
        | some seg =>
            match noteWalk seg 0 with
            | some entry => .ok (some entry)
            | none => findTbEntry image phdrs
      else findTbEntry image phdrs

/-! ## Notes

A note as it stands in a segment: three sizes and a type, then name and descriptor, each
padded to a multiple of four with bytes nobody reads. -/

structure Note where
  name : List UInt8
  namePad : List UInt8
  ntype : BitVec 32
  desc : List UInt8
  descPad : List UInt8
  name_lt : name.length < 2 ^ 32
  desc_lt : desc.length < 2 ^ 32
  length_namePad : name.length + namePad.length = align4 name.length
  length_descPad : desc.length + descPad.length = align4 desc.length

namespace Note

def fields (n : Note) : List (List UInt8) :=
  [le 4 n.name.length, le 4 n.desc.length, le 4 n.ntype.toNat, n.name, n.namePad, n.desc, n.descPad]

def encode (n : Note) : List UInt8 := n.fields.flatten

theorem length_encode (n : Note) : n.encode.length = 12 + align4 n.name.length + align4 n.desc.length := by
  have hname := n.length_namePad
  have hdesc := n.length_descPad
  simp only [encode, fields, List.length_flatten, List.map_cons, List.map_nil, List.sum_cons,
    List.sum_nil, length_le]
  omega

/-- The entry the walk takes from a note. -/
def loaderEntry (n : Note) : Option (BitVec 64) :=
  if n.ntype = TB_NOTE_TYPE_ENTRY64 ∧ stripNul n.name = TB_NOTE_NAME ∧ n.desc.length ≥ 8 then
    some (readU64Le n.desc 0)
  else none

/-- The entry `tb_boot` takes from it. -/
def sharedEntry (n : Note) : Option (BitVec 64) := (parseEntry64Note n.name n.ntype n.desc).toOption

/-- An entry note whose name goes on behind `"YUVA\0"`. -/
def Overlong (n : Note) : Prop :=
  n.ntype = TB_NOTE_TYPE_ENTRY64 ∧ 8 ≤ n.desc.length ∧ TB_NOTE_NAME ++ [0] <+: n.name ∧
    n.name ≠ TB_NOTE_NAME ++ [0]

theorem sharedEntry_eq_some {n : Note} {a : BitVec 64} :
    n.sharedEntry = some a ↔ parseEntry64Note n.name n.ntype n.desc = .ok a := by
  rw [sharedEntry]
  cases parseEntry64Note n.name n.ntype n.desc with
  | error e => simp [Except.toOption]
  | ok b => simp [Except.toOption]

end Note

theorem stripNul_eq_iff {name key : List UInt8} (hkey : (0 : UInt8) ∉ key) :
    stripNul name = key ↔ name = key ∨ name = key ++ [0] := by
  unfold stripNul
  split
  case isTrue hlast =>
    have hname : name = name.dropLast ++ [0] := (List.dropLast_append_getLast? 0 hlast).symm
    constructor
    · rintro rfl
      exact .inr hname
    · rintro (rfl | rfl)
      · exact absurd (List.mem_of_getLast? hlast) hkey
      · exact List.dropLast_concat
  case isFalse hlast =>
    constructor
    · exact .inl
    · rintro (h | rfl)
      · exact h
      · simp at hlast

/-- The two readings of a name part ways exactly on an overlong one. -/
theorem loaderEntry_eq_sharedEntry_iff (n : Note) : n.loaderEntry = n.sharedEntry ↔ ¬n.Overlong := by
  have hkey : (0 : UInt8) ∉ TB_NOTE_NAME := by decide
  have hloader : ∀ a, n.loaderEntry = some a ↔ (n.ntype = TB_NOTE_TYPE_ENTRY64 ∧
      (n.name = TB_NOTE_NAME ∨ n.name = TB_NOTE_NAME ++ [0]) ∧ 8 ≤ n.desc.length) ∧
        readU64Le n.desc 0 = a := by
    intro a
    rw [Note.loaderEntry, Option.ite_none_right_eq_some, stripNul_eq_iff hkey, Option.some.injEq]
  have hshared : ∀ a, n.sharedEntry = some a ↔ (n.ntype = TB_NOTE_TYPE_ENTRY64 ∧
      (n.name = TB_NOTE_NAME ∨ TB_NOTE_NAME ++ [0] <+: n.name) ∧ 8 ≤ n.desc.length) ∧
        readU64Le n.desc 0 = a := by
    intro a
    rw [Note.sharedEntry_eq_some, parseEntry64Note_eq_ok, noteName_eq_iff hkey]
  constructor
  · rintro heq ⟨htype, hdesc, hpre, hne⟩
    have hs := (hshared _).mpr ⟨⟨htype, .inr hpre, hdesc⟩, rfl⟩
    obtain ⟨⟨-, hname | hname, -⟩, -⟩ := (hloader _).mp (heq.trans hs)
    · rw [hname] at hpre
      exact absurd hpre.length_le (by decide)
    · exact hne hname
  · intro hover
    refine Option.ext fun a => ?_
    rw [hloader, hshared]
    constructor
    · rintro ⟨⟨htype, hname | hname, hdesc⟩, ha⟩
      · exact ⟨⟨htype, .inl hname, hdesc⟩, ha⟩
      · exact ⟨⟨htype, .inr (hname ▸ List.prefix_refl _), hdesc⟩, ha⟩
    · rintro ⟨⟨htype, hname | hpre, hdesc⟩, ha⟩
      · exact ⟨⟨htype, .inl hname, hdesc⟩, ha⟩
      · exact ⟨⟨htype, .inr (by_contra fun hne => hover ⟨htype, hdesc, hpre, hne⟩), hdesc⟩, ha⟩

/-! ## The walk over notes -/

/-- One turn, at a note that stands behind any bytes. -/
theorem noteStep_encode (pre post : List UInt8) (n : Note) :
    noteStep (pre ++ (n.encode ++ post)) pre.length =
      match n.loaderEntry with
      | some entry => .found entry
      | none => .next (pre.length + n.encode.length) := by
  have field : ∀ {i : Nat} {f : List UInt8} {off k : Nat}, n.fields[i]? = some f →
      (n.fields.take i).flatten.length = off → f.length = k →
      slice (pre ++ (n.encode ++ post)) (pre.length + off) k = f := by
    intro i f off k hf hoff hk
    rw [slice_skip _ _ (Nat.le_add_right _ _), Nat.add_sub_cancel_left]
    exact slice_field post hf hoff hk
  have hnamesz : unle (slice (pre ++ (n.encode ++ post)) pre.length 4) = n.name.length := by
    have hz : slice (pre ++ (n.encode ++ post)) (pre.length + 0) 4 = le 4 n.name.length :=
      field (i := 0) rfl rfl (length_le 4 _)
    rw [Nat.add_zero] at hz
    rw [hz, unle_le]
    exact Nat.mod_eq_of_lt n.name_lt
  have hdescsz : unle (slice (pre ++ (n.encode ++ post)) (pre.length + 4) 4) = n.desc.length := by
    rw [field (i := 1) rfl (by simp [Note.fields]) (length_le 4 _), unle_le]
    exact Nat.mod_eq_of_lt n.desc_lt
  have htype : readU32Le (pre ++ (n.encode ++ post)) (pre.length + 8) = n.ntype :=
    readU32Le_of_slice (field (i := 2) rfl (by simp [Note.fields]) (length_le 4 _))
  have hname : slice (pre ++ (n.encode ++ post)) (pre.length + 12) n.name.length = n.name :=
    field (i := 3) rfl (by simp [Note.fields]) rfl
  have hdesc : slice (pre ++ (n.encode ++ post)) (pre.length + (12 + align4 n.name.length)) n.desc.length =
      n.desc := by
    refine field (i := 5) rfl ?_ rfl
    simp [Note.fields, ← n.length_namePad]
    omega
  have hlen := n.length_encode
  have hfits : ¬(pre.length + 12 + align4 n.name.length + align4 n.desc.length >
      (pre ++ (n.encode ++ post)).length ∨
      pre.length + 12 + align4 n.name.length + align4 n.desc.length ≤ pre.length) := by
    simp only [List.length_append]
    omega
  simp only [noteStep, hnamesz, hdescsz, htype, hname, if_neg hfits, Note.loaderEntry]
  split
  case isTrue hrec =>
    -- the descriptor may be longer than the eight bytes that are read
    have hentry : slice (pre ++ (n.encode ++ post)) (pre.length + 12 + align4 n.name.length) 8 =
        slice n.desc 0 8 := by
      conv_rhs => rw [← hdesc, slice_slice (by omega), Nat.add_zero, ← Nat.add_assoc]
    simp only [readU64Le, hentry]
  case isFalse hrec =>
    simp only [hlen, Nat.add_assoc]

/-- Over a run of notes the walk finds the first one it recognises. -/
theorem noteWalk_encode (pre : List UInt8) (ns : List Note) :
    noteWalk (pre ++ ns.flatMap Note.encode) pre.length = ns.findSome? Note.loaderEntry := by
  induction ns generalizing pre with
  | nil =>
      rw [List.flatMap_nil, List.append_nil, noteWalk, if_neg (by omega), List.findSome?_nil]
  | cons n ns ih =>
      have hlen := n.length_encode
      have hroom : pre.length + 12 ≤ (pre ++ (n.encode ++ ns.flatMap Note.encode)).length := by
        simp only [List.length_append]
        omega
      have hstep := noteStep_encode pre (ns.flatMap Note.encode) n
      rw [List.flatMap_cons, noteWalk, if_pos hroom, List.findSome?_cons]
      cases hentry : n.loaderEntry with
      | some entry =>
          rw [hentry] at hstep
          split <;> simp_all
      | none =>
          have hrest := ih (pre ++ n.encode)
          rw [List.append_assoc, List.length_append] at hrest
          rw [hentry] at hstep
          split <;> simp_all

/-- Each note segment of the image is a run of notes. -/
def Layout (image : List UInt8) (phdrs : List Phdr) (segs : List (List Note)) : Prop :=
  List.Forall₂ (fun ph ns => noteSegment image ph = some (ns.flatMap Note.encode))
    (phdrs.filter (·.pType = PT_NOTE)) segs

theorem findTbEntry_layout {image : List UInt8} {phdrs : List Phdr} {segs : List (List Note)}
    (h : Layout image phdrs segs) :
    findTbEntry image phdrs = .ok (segs.flatten.findSome? Note.loaderEntry) := by
  induction phdrs generalizing segs with
  | nil =>
      cases h
      rfl
  | cons ph phdrs ih =>
      unfold Layout at h
      rw [findTbEntry]
      split
      case isTrue htype =>
        rw [List.filter_cons_of_pos (by simp [htype])] at h
        cases h with
        | cons hseg hrest =>
            rename_i ns segs
            have hwalk := noteWalk_encode [] ns
            rw [List.nil_append, List.length_nil] at hwalk
            rw [hseg, List.flatten_cons, List.findSome?_append]
            simp only [hwalk]
            cases ns.findSome? Note.loaderEntry with
            | some entry => rfl
            | none => exact ih hrest
      case isFalse htype =>
        rw [List.filter_cons_of_neg (by simpa using htype)] at h
        exact ih h

/-- The note of the shipped kernel, entered at 1 MiB. -/
def shippedNote : Note where
  name := [0x59, 0x55, 0x56, 0x41, 0]
  namePad := [0, 0, 0]
  ntype := 0x59550001
  desc := [0, 0, 0x10, 0, 0, 0, 0, 0]
  descPad := []
  name_lt := by decide
  desc_lt := by decide
  length_namePad := by decide
  length_descPad := by decide

/-- The same note with one more NUL in its name. -/
def paddedNote : Note :=
  { shippedNote with
    name := [0x59, 0x55, 0x56, 0x41, 0, 0]
    namePad := [0, 0]
    name_lt := by decide
    length_namePad := by decide }

/-- The program header of an image that is one note of 28 bytes. -/
def noteHeader : Phdr := ⟨PT_NOTE, 0, 0, 28, 28⟩

end Yuva.Vmm
