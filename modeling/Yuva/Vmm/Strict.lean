/-
# `Yuva.Vmm.Strict` — what a kernel image can make the loader do

`load_kernel` of `tb-vmm/src/loader.rs` once more, over guest memory of any layout, with the
steps written out that fail other than by a `LoaderError`:

    `a + b`, `a * b`, `a - b`     a result that is no `u64`
    `s[i]`, `&s[a..b]`            a place outside the slice
    `Vec::with_capacity`, `vec!`  more bytes than the guest has RAM

The text that a failed write is reported with is the memory's own and not counted.

`tb-vmm` calls the parser fully bounds-checked.  It is not: the end of a read and the end of
a segment in the file are unchecked sums, and the buffer of zeros behind a segment is taken
from the host before the guest's memory is asked whether it has the place.

**Proved here.**  The loader faults exactly on the images that fail `Modest`
(`fault_iff_not_modest`); where it does not, it is the loader of `Yuva.Vmm.Loader`
(`loadKernel_eq_of_modest`).
-/
import Mathlib.Order.Bounds.Basic
import Yuva.Vmm.Loader

namespace Yuva.Vmm

open Yuva.Bytes Yuva.Boot Yuva.Checked

/-! ## Guest memory of any layout -/

/-- What the monitor relies on of the crate `vm-memory`: regions of guest addresses, each
ending below `2^64`, and writes that succeed where they hit nothing but mapped bytes.  An
empty write may go either way. -/
structure GuestMmap where
  GuestMemoryMmap : Type
  /-- Base and length of each. -/
  regions : GuestMemoryMmap → List (Nat × Nat)
  accepts : GuestMemoryMmap → Nat → Nat → Bool
  writeSlice : GuestMemoryMmap → List UInt8 → Nat → Except String Unit × GuestMemoryMmap
  region_lt : ∀ {m r}, r ∈ regions m → r.1 + r.2 < 2 ^ 64
  accepts_iff : ∀ {m a n}, 0 < n → (accepts m a n = true ↔
    ∀ i < n, ∃ r ∈ regions m, r.1 ≤ a + i ∧ a + i < r.1 + r.2)
  write_ok_iff : ∀ {m bs a}, (writeSlice m bs a).1 = .ok () ↔ accepts m a bs.length = true
  regions_write : ∀ m bs a, regions (writeSlice m bs a).2 = regions m
  accepts_write : ∀ m bs a, accepts (writeSlice m bs a).2 = accepts m

namespace GuestMmap

variable {G : GuestMmap}

/-- The bytes of all regions. -/
def ram (G : GuestMmap) (m : G.GuestMemoryMmap) : Nat := ((G.regions m).map Prod.snd).sum

theorem ram_write (m : G.GuestMemoryMmap) (bs : List UInt8) (a : Nat) :
    G.ram (G.writeSlice m bs a).2 = G.ram m := by
  rw [ram, G.regions_write, ram]

/-- A range that a write was accepted for ends below `2^64`. -/
theorem lt_of_accepts {m : G.GuestMemoryMmap} {a n : Nat} (ha : a < 2 ^ 64) (h : G.accepts m a n = true) :
    a + n < 2 ^ 64 := by
  by_cases hn : n = 0
  · omega
  · obtain ⟨r, hr, -, hlt⟩ := (G.accepts_iff (Nat.pos_of_ne_zero hn)).mp h (n - 1) (by omega)
    have := G.region_lt hr
    omega

end GuestMmap

/-- A memory of one range, if the outcome of an empty write depends on the size alone. -/
@[reducible] def VmMemory.guest (V : VmMemory)
    (hempty : ∀ m m' a, V.size m = V.size m' → ((V.writeSlice m [] a).1 = .ok () ↔ (V.writeSlice m' [] a).1 = .ok ())) :
    GuestMmap where
  GuestMemoryMmap := V.GuestMemoryMmap
  regions m := [(0, V.size m)]
  accepts m a n := if n = 0 then (V.writeSlice m [] a).1.isOk else decide (a + n ≤ V.size m)
  writeSlice := V.writeSlice
  region_lt := by
    intro m r hr
    rw [List.mem_singleton.mp hr, Nat.zero_add]
    exact V.size_lt m
  accepts_iff := by
    intro m a n hn
    rw [if_neg (by omega), decide_eq_true_eq]
    constructor
    · intro h i hi
      exact ⟨_, List.mem_singleton_self _, Nat.zero_le _, by omega⟩
    · intro h
      obtain ⟨r, hr, -, hlt⟩ := h (n - 1) (by omega)
      rw [List.mem_singleton.mp hr] at hlt
      omega
  write_ok_iff := by
    intro m bs a
    by_cases hbs : bs = []
    · subst hbs
      rw [List.length_nil, if_pos rfl]
      cases (V.writeSlice m [] a).1 <;> simp [Except.isOk, Except.toBool]
    · have hlen : bs.length ≠ 0 := mt List.length_eq_zero_iff.mp hbs
      rw [if_neg hlen, decide_eq_true_eq]
      constructor
      · intro hok
        by_contra hout
        obtain ⟨e, he⟩ := V.write_outside hbs (Nat.lt_of_not_le hout)
        rw [he] at hok
        cases hok
      · exact V.write_inside hbs
  regions_write := by
    intro m bs a
    rw [V.size_writeSlice]
  accepts_write := by
    intro m bs a
    funext b n
    have hsame := hempty (V.writeSlice m bs a).2 m b (V.size_writeSlice m bs a)
    have hok : ∀ x : Except String Unit, x.isOk = true ↔ x = .ok () := by
      intro x
      cases x <;> simp [Except.isOk, Except.toBool]
    have hempty : (V.writeSlice (V.writeSlice m bs a).2 [] b).1.isOk = (V.writeSlice m [] b).1.isOk :=
      Bool.eq_iff_iff.mpr ((hok _).trans (hsame.trans (hok _).symm))
    rw [V.size_writeSlice, hempty]

/-! ## Steps that can fault -/

inductive Fault where
  | overflow
  | outOfBounds
  | oversized
  deriving DecidableEq, Repr

/-- Why a run of the loader ends early. -/
inductive Stop where
  | fault (f : Fault)
  | error (e : LoaderError)
  deriving DecidableEq, Repr

namespace Strict

abbrev Run (α : Type) := Except Stop α

def fail {α : Type} (e : LoaderError) : Run α := .error (.error e)

/-- A computation without faults, as one that could have had some. -/
def lift {α : Type} (x : Except LoaderError α) : Run α := x.mapError .error

def add64 (a b : Nat) : Run Nat := if a + b < 2 ^ 64 then .ok (a + b) else .error (.fault .overflow)

def mul64 (a b : Nat) : Run Nat := if a * b < 2 ^ 64 then .ok (a * b) else .error (.fault .overflow)

def sub64 (a b : Nat) : Run Nat := if b ≤ a then .ok (a - b) else .error (.fault .overflow)

/-- `s[i]`. -/
def index (s : List UInt8) (i : Nat) : Run UInt8 :=
  match s[i]? with
  | some b => .ok b
  | none => .error (.fault .outOfBounds)

/-- `&s[a..b]`. -/
def sub (s : List UInt8) (a b : Nat) : Run (List UInt8) :=
  if a ≤ b ∧ b ≤ s.length then .ok (slice s a (b - a)) else .error (.fault .outOfBounds)

/-- `s.get(a..b)`. -/
def getRange (s : List UInt8) (a b : Nat) : Option (List UInt8) :=
  if a ≤ b ∧ b ≤ s.length then some (slice s a (b - a)) else none

/-- Memory of the host for as many bytes. -/
def alloc (ram n : Nat) : Run Unit := if n ≤ ram then .ok () else .error (.fault .oversized)

/-- `n` bytes from a place on, one index at a time. -/
def indices (s : List UInt8) (off n : Nat) : Run (List UInt8) := (List.range' off n).mapM (index s)

/-! ## The program headers -/

def rd (n : Nat) (b : List UInt8) (off : Nat) (what : String) : Run Nat := do
  let stop ← add64 off n
  match getRange b off stop with
  | none => fail (.truncated what)
  | some s => do
      let bytes ← indices s 0 n
      return unle bytes

def align4 (n : Nat) : Run Nat := do
  let m ← add64 n 3
  return m / 4 * 4

def parsePhdr (image : List UInt8) (base : Nat) : Run Phdr := do
  let pType ← rd 4 image base "p_type"
  let pOffset ← rd 8 image (← add64 base 8) "p_offset"
  let pPaddr ← rd 8 image (← add64 base 24) "p_paddr"
  let pFilesz ← rd 8 image (← add64 base 32) "p_filesz"
  let pMemsz ← rd 8 image (← add64 base 40) "p_memsz"
  return ⟨pType, pOffset, pPaddr, pFilesz, pMemsz⟩

/-- A check that ends the run with an error. -/
def refuse (c : Prop) [Decidable c] (e : LoaderError) : Run Unit := if c then fail e else .ok ()

/-- Where the header table starts, the size of a header and their number. -/
def tableAt (image : List UInt8) : Run (Nat × Nat × Nat) := do
  refuse (image.length < EHDR_SIZE) (.truncated "ELF header")
  let magic ← sub image 0 4
  refuse (magic ≠ [0x7f, 0x45, 0x4c, 0x46]) .badMagic
  let elfClass ← index image 4
  let elfData ← index image 5
  refuse (elfClass ≠ ELFCLASS64 ∨ elfData ≠ ELFDATA2LSB) .notElf64Le
  let machine ← rd 2 image 18 "e_machine"
  refuse (machine ≠ EM_X86_64) (.badMachine machine)
  let phoff ← rd 8 image 32 "e_phoff"
  let phentsize ← rd 2 image 54 "e_phentsize"
  let phnum ← rd 2 image 56 "e_phnum"
  refuse (phentsize < PHDR_SIZE) (.truncated "e_phentsize")
  return (phoff, phentsize, phnum)

/-- `size_of::<Phdr>()`. -/
def PHDR_BYTES : Nat := 40

/-- A turn of the loop over the table. -/
def parseEntry (image : List UInt8) (phoff phentsize i : Nat) : Run Phdr := do
  let base ← add64 phoff (← mul64 i phentsize)
  parsePhdr image base

def parsePhdrs (ram : Nat) (image : List UInt8) : Run (List Phdr) := do
  let (phoff, phentsize, phnum) ← tableAt image
  alloc ram (phnum * PHDR_BYTES)
  (List.range phnum).mapM (parseEntry image phoff phentsize)

/-! ## The note walk -/

def noteStep (seg : List UInt8) (off : Nat) : Run NoteStep := do
  let namesz := unle (← indices seg off 4)
  let descsz := unle (← indices seg (← add64 off 4) 4)
  let ntype := readU32Le (← indices seg (← add64 off 8) 4) 0
  let nameOff ← add64 off 12
  let descOff ← add64 nameOff (← align4 namesz)
  let next ← add64 descOff (← align4 descsz)
  if next > seg.length ∨ next ≤ off then return .stop
  let name ← sub seg nameOff (← add64 nameOff namesz)
  if ntype = TB_NOTE_TYPE_ENTRY64 ∧ stripNul name = TB_NOTE_NAME ∧ descsz ≥ 8 then
    let d ← sub seg descOff (← add64 descOff 8)
    return .found (readU64Le d 0)
  return .next next

theorem noteStep_next {seg : List UInt8} {off n : Nat} (h : noteStep seg off = .ok (.next n)) :
    off < n ∧ n ≤ seg.length := by
  unfold noteStep at h
  obtain ⟨_, -, h⟩ := bind_eq_ok.mp h
  obtain ⟨_, -, h⟩ := bind_eq_ok.mp h
  obtain ⟨_, -, h⟩ := bind_eq_ok.mp h
  obtain ⟨_, -, h⟩ := bind_eq_ok.mp h
  obtain ⟨_, -, h⟩ := bind_eq_ok.mp h
  obtain ⟨_, -, h⟩ := bind_eq_ok.mp h
  obtain ⟨_, -, h⟩ := bind_eq_ok.mp h
  obtain ⟨_, -, h⟩ := bind_eq_ok.mp h
  obtain ⟨_, -, h⟩ := bind_eq_ok.mp h
  obtain ⟨next, -, h⟩ := bind_eq_ok.mp h
  split at h
  · cases h
  case isFalse hin =>
    obtain ⟨_, -, h⟩ := bind_eq_ok.mp h
    obtain ⟨_, -, h⟩ := bind_eq_ok.mp h
    split at h
    · obtain ⟨_, -, h⟩ := bind_eq_ok.mp h
      obtain ⟨_, -, h⟩ := bind_eq_ok.mp h
      cases h
    · cases h
      omega

def noteWalk (seg : List UInt8) (off : Nat) : Run (Option (BitVec 64)) :=
  match add64 off 12 with
  | .error e => .error e
  | .ok stop =>
      if stop ≤ seg.length then
        match _hstep : noteStep seg off with
        | .error e => .error e
        | .ok .stop => .ok none
        | .ok (.found entry) => .ok (some entry)
        | .ok (.next n) => noteWalk seg n
      else .ok none
termination_by seg.length - off
decreasing_by
  have := noteStep_next _hstep
  omega

def findTbEntry (image : List UInt8) : List Phdr → Run (Option (BitVec 64))
  | [] => .ok none
  | ph :: phdrs =>
      if ph.pType = PT_NOTE then
        match noteSegment image ph with
        | none => fail (.truncated "PT_NOTE")
        | some seg => do
            match ← noteWalk seg 0 with
            | some entry => return some entry
            | none => findTbEntry image phdrs
      else findTbEntry image phdrs

/-! ## The segments -/

section Load

variable {G : GuestMmap}

structure LoadProgress (G : GuestMmap) where
  mem : G.GuestMemoryMmap
  loadedAny : Bool
  imageEnd : Nat

def loadWrite (G : GuestMmap) (m : G.GuestMemoryMmap) (paddr : Nat) (bytes : List UInt8) :
    Run G.GuestMemoryMmap :=
  match G.writeSlice m bytes paddr with
  | (.ok _, m') => .ok m'
  | (.error detail, _) => fail (.guestWrite paddr detail)

/-- The zeros behind the file bytes. -/
def zeroTail (G : GuestMmap) (m : G.GuestMemoryMmap) (ph : Phdr) : Run G.GuestMemoryMmap := do
  let bss ← sub64 ph.pMemsz ph.pFilesz
  if bss > 0 then do
    alloc (G.ram m) bss
    let dst ← add64 ph.pPaddr ph.pFilesz
    loadWrite G m dst (List.replicate bss 0)
  else return m

def loadSegment (G : GuestMmap) (image : List UInt8) (s : LoadProgress G) (idx : Nat) (ph : Phdr) :
    Run (LoadProgress G) :=
  if ph.pType ≠ PT_LOAD ∨ ph.pMemsz = 0 then .ok s
  else if ph.pFilesz > ph.pMemsz then fail (.badSegmentSize idx)
  else do
    let stop ← add64 ph.pOffset ph.pFilesz
    match getRange image ph.pOffset stop with
    | none => fail (.segmentOutOfFile idx)
    | some src => do
        let m ← loadWrite G s.mem ph.pPaddr src
        let m ← zeroTail G m ph
        let top ← add64 ph.pPaddr ph.pMemsz
        return ⟨m, true, max s.imageEnd top⟩

def loadSegments (G : GuestMmap) (image : List UInt8) :
    LoadProgress G → Nat → List Phdr → Run (LoadProgress G)
  | s, _, [] => .ok s
  | s, idx, ph :: phdrs => do
      let s ← loadSegment G image s idx ph
      loadSegments G image s (idx + 1) phdrs

def loadKernel (G : GuestMmap) (image : List UInt8) (mem : G.GuestMemoryMmap) :
    Run (LoadedKernel × G.GuestMemoryMmap) := do
  let phdrs ← parsePhdrs (G.ram mem) image
  let s ← loadSegments G image ⟨mem, false, 0⟩ 0 phdrs
  if !s.loadedAny then fail .noLoadSegments
  match ← findTbEntry image phdrs with
  | none => fail .missingTbNote
  | some entry => return (⟨entry, s.imageEnd⟩, s.mem)

end Load

/-! ## Runs that fault -/

def Faults {α : Type} (x : Run α) : Prop := ∃ f, x = .error (.fault f)

section Faults

variable {α β : Type}

theorem faults_fault (f : Fault) : Faults (.error (.fault f) : Run α) := ⟨f, rfl⟩

@[simp] theorem not_faults_ok (a : α) : ¬Faults (.ok a : Run α) := by
  rintro ⟨f, h⟩
  cases h

@[simp] theorem not_faults_fail (e : LoaderError) : ¬Faults (fail e : Run α) := by
  rintro ⟨f, h⟩
  cases h

@[simp] theorem not_faults_lift (x : Except LoaderError α) : ¬Faults (lift x) := by
  rintro ⟨f, h⟩
  cases x <;> cases h

/-- A run faults in its first half, or behind it. -/
theorem faults_bind {x : Run α} {f : α → Run β} :
    Faults (x >>= f) ↔ Faults x ∨ ∃ a, x = .ok a ∧ Faults (f a) := by
  cases x with
  | error e => simp [bind, Except.bind, Faults]
  | ok a => simp [bind, Except.bind, Faults]

theorem lift_bind (x : Except LoaderError α) (f : α → Except LoaderError β) :
    lift (x >>= f) = lift x >>= fun a => lift (f a) := by
  cases x <;> rfl

theorem ok_of_lift {x : Except LoaderError α} {a : α} (h : lift x = .ok a) : x = .ok a := ok_of_mapError h

end Faults

/-! ## One step at a time -/

theorem add64_eq {a b : Nat} (h : a + b < 2 ^ 64) : add64 a b = .ok (a + b) := if_pos h

theorem mul64_eq {a b : Nat} (h : a * b < 2 ^ 64) : mul64 a b = .ok (a * b) := if_pos h

theorem sub_eq {s : List UInt8} {a b : Nat} (hab : a ≤ b) (h : b ≤ s.length) :
    sub s a b = .ok (slice s a (b - a)) := if_pos ⟨hab, h⟩

theorem index_eq {s : List UInt8} {i : Nat} (h : i < s.length) : index s i = .ok (s.getD i 0) := by
  rw [index, List.getElem?_eq_getElem h, List.getD_eq_getElem _ _ h]

theorem indices_eq {s : List UInt8} {off n : Nat} (h : off + n ≤ s.length) :
    indices s off n = .ok (slice s off n) := by
  induction n generalizing off with
  | zero => simp [indices, slice, pure, Except.pure]
  | succ n ih =>
      have hrest : (List.range' (off + 1) n).mapM (index s) = .ok (slice s (off + 1) n) := ih (by omega)
      have hcons : slice s off (n + 1) = s.getD off 0 :: slice s (off + 1) n := by
        rw [List.getD_eq_getElem _ _ (by omega), slice, slice, List.drop_eq_getElem_cons (by omega),
          List.take_succ_cons]
      rw [indices, List.range'_succ, List.mapM_cons, index_eq (by omega), hrest, hcons]
      rfl

theorem getRange_add (s : List UInt8) (off n : Nat) : getRange s off (off + n) = get s off n := by
  simp [getRange, Vmm.get]

theorem rd_eq {n off : Nat} {b : List UInt8} {what : String} (h : off + n < 2 ^ 64) :
    rd n b off what = lift (Vmm.rd n b off what) := by
  rw [rd, add64_eq h, Vmm.rd]
  show (match getRange b off (off + n) with | none => _ | some s => _) = _
  rw [getRange_add]
  cases hget : Vmm.get b off n with
  | none => rfl
  | some s =>
      obtain ⟨hlen, rfl⟩ := get_eq_some.mp hget
      have hs := length_slice hlen
      show indices (slice b off n) 0 n >>= _ = _
      rw [indices_eq (by omega)]
      show (.ok (unle (slice (slice b off n) 0 n)) : Run Nat) = .ok _
      rw [slice_slice (by omega), Nat.add_zero]

theorem faults_rd {n off : Nat} {b : List UInt8} {what : String} :
    Faults (rd n b off what) ↔ 2 ^ 64 ≤ off + n := by
  by_cases h : off + n < 2 ^ 64
  · rw [rd_eq h]
    simp only [not_faults_lift, false_iff]
    omega
  · rw [rd, add64, if_neg h]
    simp only [Nat.not_lt.mp h, iff_true]
    exact faults_fault _

/-! ## The header table -/

/-- The program header at a place of the image. -/
def phdrAt (image : List UInt8) (base : Nat) : Phdr :=
  ⟨unle (slice image base 4), unle (slice image (base + 8) 8), unle (slice image (base + 24) 8),
    unle (slice image (base + 32) 8), unle (slice image (base + 40) 8)⟩

/-- An ELF header that the loader takes, and what it says of the header table. -/
structure Header (image : List UInt8) (phoff phentsize phnum : Nat) : Prop where
  length : EHDR_SIZE ≤ image.length
  magic : slice image 0 4 = [0x7f, 0x45, 0x4c, 0x46]
  elf64Le : image.getD 4 0 = ELFCLASS64 ∧ image.getD 5 0 = ELFDATA2LSB
  machine : unle (slice image 18 2) = EM_X86_64
  offset : phoff = unle (slice image 32 8)
  entry : phentsize = unle (slice image 54 2)
  number : phnum = unle (slice image 56 2)
  size : PHDR_SIZE ≤ phentsize

theorem vmm_rd_eq {n off : Nat} {b : List UInt8} {what : String} (h : off + n ≤ b.length) :
    Vmm.rd n b off what = .ok (unle (slice b off n)) := by
  rw [Vmm.rd, Vmm.get, if_pos h]

theorem vmm_rd_short {n off : Nat} {b : List UInt8} {what : String} (h : b.length < off + n) :
    Vmm.rd n b off what = .error (.truncated what) := by
  rw [Vmm.rd, Vmm.get, if_neg (by omega)]

theorem vmm_parsePhdr_eq {image : List UInt8} {base : Nat} (h : base + 48 ≤ image.length) :
    Vmm.parsePhdr image base = .ok (phdrAt image base) := by
  rw [Vmm.parsePhdr, rdU32, rdU64, vmm_rd_eq (by omega), vmm_rd_eq (by omega), vmm_rd_eq (by omega),
    vmm_rd_eq (by omega), vmm_rd_eq (by omega)]
  rfl

theorem vmm_parsePhdr_ok {image : List UInt8} {base : Nat} {ph : Phdr} (h : Vmm.parsePhdr image base = .ok ph) :
    base + 48 ≤ image.length := by
  obtain ⟨_, -, h⟩ := bind_eq_ok.mp h
  obtain ⟨_, -, h⟩ := bind_eq_ok.mp h
  obtain ⟨_, -, h⟩ := bind_eq_ok.mp h
  obtain ⟨_, -, h⟩ := bind_eq_ok.mp h
  obtain ⟨_, hlast, -⟩ := bind_eq_ok.mp h
  by_contra hshort
  rw [rdU64, vmm_rd_short (by omega)] at hlast
  cases hlast

variable {image : List UInt8}

theorem parsePhdr_eq {base : Nat} (himage : image.length < 2 ^ 63) (h : base + 4 < 2 ^ 64) :
    parsePhdr image base = lift (Vmm.parsePhdr image base) := by
  rw [parsePhdr, rd_eq h, Vmm.parsePhdr, lift_bind]
  by_cases hfile : base + 4 ≤ image.length
  · rw [add64_eq (by omega), add64_eq (by omega), add64_eq (by omega), add64_eq (by omega)]
    simp only [lift_bind, ← rd_eq (show base + 8 + 8 < 2 ^ 64 by omega),
      ← rd_eq (show base + 24 + 8 < 2 ^ 64 by omega), ← rd_eq (show base + 32 + 8 < 2 ^ 64 by omega),
      ← rd_eq (show base + 40 + 8 < 2 ^ 64 by omega), rdU32, rdU64]
    rfl
  · rw [rdU32, vmm_rd_short (by omega)]
    rfl

theorem faults_parsePhdr {base : Nat} (himage : image.length < 2 ^ 63) :
    Faults (parsePhdr image base) ↔ 2 ^ 64 ≤ base + 4 := by
  by_cases h : base + 4 < 2 ^ 64
  · rw [parsePhdr_eq himage h]
    simp only [not_faults_lift, false_iff]
    omega
  · simp only [Nat.not_lt.mp h, iff_true]
    exact faults_bind.mpr (.inl (faults_rd.mpr (Nat.not_lt.mp h)))

@[simp] theorem ok_bind {ε α β : Type} (a : α) (f : α → Except ε β) : (Except.ok a >>= f) = f a := rfl

@[simp] theorem fail_bind {α β : Type} (e : LoaderError) (f : α → Run β) : (fail e >>= f) = fail e := rfl

/-- The ELF header is taken, or refused with the error of the unguarded parser. -/
theorem tableAt_cases (image : List UInt8) :
    (∃ phoff phentsize phnum, tableAt image = .ok (phoff, phentsize, phnum) ∧
      Header image phoff phentsize phnum ∧
      Vmm.parsePhdrs image = (List.range phnum).mapM fun i => Vmm.parsePhdr image (phoff + i * phentsize)) ∨
    (∃ e, tableAt image = fail e ∧ Vmm.parsePhdrs image = .error e ∧
      ∀ phoff phentsize phnum, ¬Header image phoff phentsize phnum) := by
  rw [tableAt, Vmm.parsePhdrs]
  by_cases hlen : image.length < EHDR_SIZE
  · exact .inr ⟨_, by rw [refuse, if_pos hlen, fail_bind], by rw [if_pos hlen]; rfl,
      fun _ _ _ h => absurd h.length (Nat.not_le.mpr hlen)⟩
  have hlen' : 64 ≤ image.length := Nat.not_lt.mp hlen
  rw [refuse, if_neg hlen, if_neg hlen, ok_bind, sub_eq (by omega) (by omega), ok_bind, Nat.sub_zero]
  by_cases hmagic : slice image 0 4 ≠ [0x7f, 0x45, 0x4c, 0x46]
  · exact .inr ⟨_, by rw [refuse, if_pos hmagic, fail_bind], by rw [if_pos hmagic]; rfl,
      fun _ _ _ h => absurd h.magic hmagic⟩
  rw [refuse, if_neg hmagic, if_neg hmagic, ok_bind, index_eq (by omega), index_eq (by omega), ok_bind, ok_bind]
  by_cases hclass : image.getD 4 0 ≠ ELFCLASS64 ∨ image.getD 5 0 ≠ ELFDATA2LSB
  · refine .inr ⟨_, by rw [refuse, if_pos hclass, fail_bind], by rw [if_pos hclass]; rfl, fun _ _ _ h => ?_⟩
    exact hclass.elim (absurd h.elf64Le.1) (absurd h.elf64Le.2)
  rw [refuse, if_neg hclass, if_neg hclass, ok_bind, rd_eq (by decide), rdU16, rdU64, vmm_rd_eq (by omega),
    vmm_rd_eq (by omega), vmm_rd_eq (by omega), vmm_rd_eq (by omega)]
  by_cases hmachine : unle (slice image 18 2) ≠ EM_X86_64
  · exact .inr ⟨_, by rw [lift, Except.mapError, ok_bind, refuse, if_pos hmachine, fail_bind],
      by rw [ok_bind, if_pos hmachine]; rfl, fun _ _ _ h => absurd h.machine hmachine⟩
  rw [lift, Except.mapError, ok_bind, ok_bind, refuse, if_neg hmachine, if_neg hmachine, ok_bind,
    rd_eq (by decide), rd_eq (by decide), rd_eq (by decide), vmm_rd_eq (by omega), vmm_rd_eq (by omega),
    vmm_rd_eq (by omega)]
  by_cases hsize : unle (slice image 54 2) < PHDR_SIZE
  · refine .inr ⟨.truncated "e_phentsize", ?_, ?_, ?_⟩
    · simp only [lift, Except.mapError, ok_bind, refuse, if_pos hsize, fail_bind]
    · simp only [ok_bind, if_pos hsize]
      rfl
    · intro phoff phentsize phnum h
      have := h.size
      rw [h.entry] at this
      exact Nat.not_le.mpr hsize this
  · refine .inl ⟨unle (slice image 32 8), unle (slice image 54 2), unle (slice image 56 2), ?_, ?_, ?_⟩
    · simp only [lift, Except.mapError, ok_bind, refuse, if_neg hsize]
      rfl
    · exact ⟨hlen', not_not.mp hmagic, ⟨by tauto, by tauto⟩, not_not.mp hmachine, rfl, rfl, rfl,
        Nat.not_lt.mp hsize⟩
    · simp only [ok_bind, if_neg hsize]

theorem Header.lt {phoff phentsize phnum : Nat} (h : Header image phoff phentsize phnum) :
    phoff < 2 ^ 64 ∧ phentsize < 2 ^ 16 ∧ phnum < 2 ^ 16 := by
  have hlen : 64 ≤ image.length := h.length
  have field : ∀ off n, off + n ≤ image.length → unle (slice image off n) < 256 ^ n := by
    intro off n hin
    have := unle_lt (slice image off n)
    rwa [length_slice hin] at this
  rw [h.offset, h.entry, h.number]
  exact ⟨field 32 8 (by omega), field 54 2 (by omega), field 56 2 (by omega)⟩

/-- Only the first header can lie so high that its end overflows: the others stand behind one
that was read, and so behind a place inside the file. -/
theorem entries_eq {phoff phentsize : Nat} (himage : image.length < 2 ^ 63) (hsize : phentsize < 2 ^ 16) :
    ∀ {n i : Nat}, i + n ≤ 2 ^ 16 → (n = 0 ∨ phoff + i * phentsize + 4 < 2 ^ 64) →
      (List.range' i n).mapM (parseEntry image phoff phentsize) =
        lift ((List.range' i n).mapM fun i => Vmm.parsePhdr image (phoff + i * phentsize)) := by
  intro n
  induction n with
  | zero =>
      intro i hi hstart
      rfl
  | succ n ih =>
      intro i hi hstart
      have hprod : i * phentsize ≤ 2 ^ 16 * 2 ^ 16 := Nat.mul_le_mul (by omega) (by omega)
      have hbase : phoff + i * phentsize + 4 < 2 ^ 64 := hstart.resolve_left (Nat.succ_ne_zero n)
      have hentry : parseEntry image phoff phentsize i = lift (Vmm.parsePhdr image (phoff + i * phentsize)) := by
        rw [parseEntry, mul64_eq (by omega), ok_bind, add64_eq (by omega), ok_bind, parsePhdr_eq himage hbase]
      rw [List.range'_succ, List.mapM_cons, List.mapM_cons, hentry, lift_bind]
      cases hph : Vmm.parsePhdr image (phoff + i * phentsize) with
      | error e => rfl
      | ok ph =>
          have hin := vmm_parsePhdr_ok hph
          have hnext : phoff + (i + 1) * phentsize + 4 < 2 ^ 64 := by
            rw [Nat.succ_mul]
            omega
          show (List.range' (i + 1) n).mapM _ >>= _ = lift ((List.range' (i + 1) n).mapM _ >>= _)
          rw [ih (by omega) (.inr hnext), lift_bind]
          rfl

/-- The reads of a table that does not start at the very top, as those of the unguarded parser. -/
theorem parsePhdrs_eq {ram phoff phentsize phnum : Nat} (himage : image.length < 2 ^ 63)
    (h : Header image phoff phentsize phnum) (htop : phnum = 0 ∨ phoff + 4 < 2 ^ 64)
    (hram : phnum * PHDR_BYTES ≤ ram) : parsePhdrs ram image = lift (Vmm.parsePhdrs image) := by
  obtain ⟨o, e, n, hat, hh, hvmm⟩ | ⟨e, -, -, hno⟩ := tableAt_cases image
  · obtain rfl : phoff = o := h.offset.trans hh.offset.symm
    obtain rfl : phentsize = e := h.entry.trans hh.entry.symm
    obtain rfl : phnum = n := h.number.trans hh.number.symm
    have hlt := h.lt
    have hloop : (List.range' 0 phnum).mapM (parseEntry image phoff phentsize) =
        lift ((List.range' 0 phnum).mapM fun i => Vmm.parsePhdr image (phoff + i * phentsize)) :=
      entries_eq himage hlt.2.1 (by omega) (by simpa using htop)
    rw [parsePhdrs, hat, ok_bind, hvmm]
    show alloc ram (phnum * PHDR_BYTES) >>= _ = _
    rw [alloc, if_pos hram, ok_bind, List.range_eq_range', hloop]
  · exact absurd h (hno _ _ _)

theorem faults_parsePhdrs {ram : Nat} (himage : image.length < 2 ^ 63) :
    Faults (parsePhdrs ram image) ↔ ∃ phoff phentsize phnum, Header image phoff phentsize phnum ∧
      (ram < phnum * PHDR_BYTES ∨ 0 < phnum ∧ 2 ^ 64 ≤ phoff + 4) := by
  constructor
  · intro hf
    obtain ⟨o, e, n, hat, hh, -⟩ | ⟨e, hat, -, -⟩ := tableAt_cases image
    · refine ⟨o, e, n, hh, ?_⟩
      by_contra hgood
      rw [parsePhdrs_eq himage hh (by omega) (by omega)] at hf
      exact not_faults_lift _ hf
    · rw [parsePhdrs, hat, fail_bind] at hf
      exact absurd hf (not_faults_fail e)
  · rintro ⟨o, e, n, hh, hbad⟩
    obtain ⟨o', e', n', hat, hh', -⟩ | ⟨_, -, -, hno⟩ := tableAt_cases image
    · obtain rfl : o = o' := hh.offset.trans hh'.offset.symm
      obtain rfl : n = n' := hh.number.trans hh'.number.symm
      rw [parsePhdrs, hat, ok_bind]
      show Faults (alloc ram (n * PHDR_BYTES) >>= _)
      by_cases hram : ram < n * PHDR_BYTES
      · rw [alloc, if_neg (by omega)]
        exact faults_fault _
      · obtain ⟨hn, htop⟩ := hbad.resolve_left hram
        have hlt := hh.lt.1
        obtain ⟨k, rfl⟩ := Nat.exists_eq_succ_of_ne_zero (Nat.pos_iff_ne_zero.mp hn)
        have hfirst : Faults (parseEntry image o e' 0) := by
          rw [parseEntry, mul64_eq (by omega), ok_bind, Nat.zero_mul, add64_eq (by omega), ok_bind]
          exact (faults_parsePhdr himage).mpr htop
        rw [alloc, if_pos (by omega), ok_bind, List.range_eq_range', List.range'_succ, List.mapM_cons]
        exact faults_bind.mpr (.inl hfirst)
    · exact absurd hh (hno _ _ _)

theorem vmm_entries_eq_ok {phoff phentsize : Nat} {is : List Nat} {phdrs : List Phdr} :
    (is.mapM fun i => Vmm.parsePhdr image (phoff + i * phentsize)) = .ok phdrs ↔
      (∀ i ∈ is, phoff + i * phentsize + 48 ≤ image.length) ∧
        phdrs = is.map fun i => phdrAt image (phoff + i * phentsize) := by
  induction is generalizing phdrs with
  | nil => simp [pure, Except.pure, eq_comm]
  | cons i is ih =>
      rw [List.mapM_cons]
      constructor
      · intro h
        obtain ⟨ph, hph, h⟩ := bind_eq_ok.mp h
        obtain ⟨rest, hrest, h⟩ := bind_eq_ok.mp h
        have hin := vmm_parsePhdr_ok hph
        rw [vmm_parsePhdr_eq hin] at hph
        obtain ⟨hall, rfl⟩ := ih.mp hrest
        cases h
        cases hph
        exact ⟨List.forall_mem_cons.mpr ⟨hin, hall⟩, rfl⟩
      · rintro ⟨hall, rfl⟩
        obtain ⟨hin, hrest⟩ := List.forall_mem_cons.mp hall
        rw [vmm_parsePhdr_eq hin, ok_bind, ih.mpr ⟨hrest, rfl⟩]
        rfl

/-- What the unguarded parser accepts. -/
theorem vmm_parsePhdrs_eq_ok {phdrs : List Phdr} :
    Vmm.parsePhdrs image = .ok phdrs ↔ ∃ phoff phentsize phnum, Header image phoff phentsize phnum ∧
      (∀ i < phnum, phoff + i * phentsize + 48 ≤ image.length) ∧
      phdrs = (List.range phnum).map fun i => phdrAt image (phoff + i * phentsize) := by
  obtain ⟨o, e, n, -, hh, hvmm⟩ | ⟨e, -, hvmm, hno⟩ := tableAt_cases image
  · rw [hvmm, vmm_entries_eq_ok]
    simp only [List.mem_range]
    constructor
    · rintro ⟨hall, rfl⟩
      exact ⟨o, e, n, hh, hall, rfl⟩
    · rintro ⟨o', e', n', hh', hall, rfl⟩
      obtain rfl : o = o' := hh.offset.trans hh'.offset.symm
      obtain rfl : e = e' := hh.entry.trans hh'.entry.symm
      obtain rfl : n = n' := hh.number.trans hh'.number.symm
      exact ⟨hall, rfl⟩
  · rw [hvmm]
    constructor
    · intro h
      cases h
    · rintro ⟨o, e, n, hh, -⟩
      exact absurd hh (hno _ _ _)

/-! ## The note walk does not fault -/

theorem align4_eq {n : Nat} (h : n < 2 ^ 32) : align4 n = .ok (Vmm.align4 n) := by
  rw [align4, add64_eq (by omega)]
  rfl

theorem noteStep_eq {seg : List UInt8} {off : Nat} (hseg : seg.length < 2 ^ 63) (h : off + 12 ≤ seg.length) :
    noteStep seg off = .ok (Vmm.noteStep seg off) := by
  have hname := unle_lt (slice seg off 4)
  have hdesc := unle_lt (slice seg (off + 4) 4)
  rw [length_slice (by omega)] at hname hdesc
  have hpad : ∀ n, n ≤ Vmm.align4 n ∧ Vmm.align4 n ≤ n + 3 := by
    intro n
    rw [Vmm.align4]
    omega
  have hnamePad := hpad (unle (slice seg off 4))
  have hdescPad := hpad (unle (slice seg (off + 4) 4))
  have htype : readU32Le (slice seg (off + 8) 4) 0 = readU32Le seg (off + 8) := by
    rw [readU32Le, readU32Le, slice_slice (by omega), Nat.add_zero]
  rw [noteStep, indices_eq (by omega), ok_bind, add64_eq (by omega), ok_bind, indices_eq (by omega), ok_bind,
    add64_eq (by omega), ok_bind, indices_eq (by omega), ok_bind, add64_eq (by omega), ok_bind,
    align4_eq (by omega), ok_bind, add64_eq (by omega), ok_bind, align4_eq (by omega), ok_bind,
    add64_eq (by omega), ok_bind, htype, Vmm.noteStep]
  split
  · rfl
  case isFalse hin =>
    rw [add64_eq (by omega), ok_bind, sub_eq (by omega) (by omega), ok_bind, Nat.add_sub_cancel_left]
    split
    case isTrue hfound =>
      have hval : readU64Le (slice seg (off + 12 + Vmm.align4 (unle (slice seg off 4))) 8) 0 =
          readU64Le seg (off + 12 + Vmm.align4 (unle (slice seg off 4))) := by
        rw [readU64Le, readU64Le, slice_slice (by omega), Nat.add_zero]
      rw [add64_eq (by omega), ok_bind, sub_eq (by omega) (by omega), ok_bind, Nat.add_sub_cancel_left, hval]
      rfl
    case isFalse => rfl

theorem noteWalk_eq {seg : List UInt8} (hseg : seg.length < 2 ^ 63) (off : Nat) (hoff : off ≤ seg.length) :
    noteWalk seg off = .ok (Vmm.noteWalk seg off) := by
  rw [noteWalk, add64_eq (by omega), Vmm.noteWalk]
  dsimp only
  split
  case isTrue hin =>
    have hstep := noteStep_eq hseg hin
    split
    case h_1 e h => rw [hstep] at h; cases h
    case h_2 h =>
      rw [hstep] at h
      have hv := Except.ok.inj h
      split <;> simp_all
    case h_3 entry h =>
      rw [hstep] at h
      have hv := Except.ok.inj h
      split <;> simp_all
    case h_4 n h =>
      have hnext := noteStep_next h
      rw [hstep] at h
      have hv := Except.ok.inj h
      split
      case h_1 h' => rw [hv] at h'; cases h'
      case h_2 h' => rw [hv] at h'; cases h'
      case h_3 n' h' =>
        rw [hv] at h'
        cases h'
        exact noteWalk_eq hseg n hnext.2
  case isFalse => rfl
termination_by seg.length - off
decreasing_by omega

/-- The slices of an image are no longer than the image. -/
theorem findTbEntry_eq (himage : image.length < 2 ^ 63) (phdrs : List Phdr) :
    findTbEntry image phdrs = lift (Vmm.findTbEntry image phdrs) := by
  induction phdrs with
  | nil => rfl
  | cons ph phdrs ih =>
      rw [findTbEntry, Vmm.findTbEntry]
      split
      case isTrue =>
        cases hseg : noteSegment image ph with
        | none => rfl
        | some seg =>
            have hlen : seg.length < 2 ^ 63 := by
              rw [noteSegment] at hseg
              split at hseg
              · obtain ⟨hin, rfl⟩ := get_eq_some.mp hseg
                rw [length_slice hin]
                omega
              · cases hseg
            dsimp only
            rw [noteWalk_eq hlen 0 (Nat.zero_le _), ok_bind]
            cases Vmm.noteWalk seg 0 with
            | none => exact ih
            | some entry => rfl
      case isFalse => exact ih

/-! ## The segments, one at a time -/

section Load

variable {G : GuestMmap}

/-- The same places can be written. -/
structure Like (m m' : G.GuestMemoryMmap) : Prop where
  ram : G.ram m' = G.ram m
  accepts : G.accepts m' = G.accepts m

theorem Like.refl (m : G.GuestMemoryMmap) : Like m m := ⟨rfl, rfl⟩

theorem Like.trans {m₁ m₂ m₃ : G.GuestMemoryMmap} (h : Like m₁ m₂) (h' : Like m₂ m₃) : Like m₁ m₃ :=
  ⟨h'.ram.trans h.ram, h'.accepts.trans h.accepts⟩

theorem loadWrite_of_accepts {m : G.GuestMemoryMmap} {paddr : Nat} {bytes : List UInt8}
    (h : G.accepts m paddr bytes.length = true) : ∃ m', loadWrite G m paddr bytes = .ok m' ∧ Like m m' := by
  have hok := G.write_ok_iff.mpr h
  refine ⟨(G.writeSlice m bytes paddr).2, ?_, G.ram_write m bytes paddr, G.accepts_write m bytes paddr⟩
  rw [loadWrite]
  cases hw : G.writeSlice m bytes paddr with
  | mk r m' =>
      rw [hw] at hok
      cases hok
      rfl

theorem loadWrite_of_refused {m : G.GuestMemoryMmap} {paddr : Nat} {bytes : List UInt8}
    (h : ¬G.accepts m paddr bytes.length = true) : ∃ e, loadWrite G m paddr bytes = fail e := by
  have hno := mt G.write_ok_iff.mp h
  rw [loadWrite]
  cases hw : G.writeSlice m bytes paddr with
  | mk r m' =>
      rw [hw] at hno
      cases r with
      | error detail => exact ⟨_, rfl⟩
      | ok u => exact absurd rfl hno

theorem accepts_of_loadWrite {m m' : G.GuestMemoryMmap} {paddr : Nat} {bytes : List UInt8}
    (h : loadWrite G m paddr bytes = .ok m') : G.accepts m paddr bytes.length = true := by
  by_contra hno
  obtain ⟨e, he⟩ := loadWrite_of_refused hno
  rw [h] at he
  cases he

/-- Its bytes are in the file, and it has its place in the memory. -/
structure Placed (G : GuestMmap) (m : G.GuestMemoryMmap) (image : List UInt8) (ph : Phdr) : Prop where
  size : ph.pFilesz ≤ ph.pMemsz
  file : ph.pOffset + ph.pFilesz ≤ image.length
  bytes : G.accepts m ph.pPaddr ph.pFilesz = true
  zeros : ph.pFilesz < ph.pMemsz → G.accepts m (ph.pPaddr + ph.pFilesz) (ph.pMemsz - ph.pFilesz) = true

/-- Its end in the file is a machine word, and once its file bytes were written its zeros are
no more than the guest has RAM. -/
structure ModestPhdr (G : GuestMmap) (m : G.GuestMemoryMmap) (image : List UInt8) (ph : Phdr) : Prop where
  stop : ph.pFilesz ≤ ph.pMemsz → ph.pOffset + ph.pFilesz < 2 ^ 64
  zeros : ph.pFilesz ≤ ph.pMemsz → ph.pOffset + ph.pFilesz ≤ image.length →
    G.accepts m ph.pPaddr ph.pFilesz = true → ph.pMemsz - ph.pFilesz ≤ G.ram m

theorem Placed.of_like {m m' : G.GuestMemoryMmap} {ph : Phdr} (h : Like m m') (hp : Placed G m' image ph) :
    Placed G m image ph :=
  ⟨hp.size, hp.file, h.accepts ▸ hp.bytes, h.accepts ▸ hp.zeros⟩

theorem loadable_iff {ph : Phdr} : ph.loadable = true ↔ ¬(ph.pType ≠ PT_LOAD ∨ ph.pMemsz = 0) := by
  simp only [Phdr.loadable, Bool.and_eq_true, decide_eq_true_eq, not_or, not_not, ne_eq]

theorem loadSegment_skip {s : LoadProgress G} {idx : Nat} {ph : Phdr} (h : ¬ph.loadable = true) :
    loadSegment G image s idx ph = .ok s := by
  rw [loadSegment, if_pos (not_not.mp (mt loadable_iff.mpr h))]

theorem zeroTail_cases {m : G.GuestMemoryMmap} {ph : Phdr} (hsize : ph.pFilesz ≤ ph.pMemsz)
    (hdst : ph.pPaddr + ph.pFilesz < 2 ^ 64) :
    (G.ram m < ph.pMemsz - ph.pFilesz ∧ Faults (zeroTail G m ph)) ∨
    (ph.pMemsz - ph.pFilesz ≤ G.ram m ∧
      ¬(ph.pFilesz < ph.pMemsz → G.accepts m (ph.pPaddr + ph.pFilesz) (ph.pMemsz - ph.pFilesz) = true) ∧
      ∃ e, zeroTail G m ph = fail e) ∨
    (ph.pMemsz - ph.pFilesz ≤ G.ram m ∧
      (ph.pFilesz < ph.pMemsz → G.accepts m (ph.pPaddr + ph.pFilesz) (ph.pMemsz - ph.pFilesz) = true) ∧
      ∃ m', Like m m' ∧ zeroTail G m ph = .ok m') := by
  have hlen : (List.replicate (ph.pMemsz - ph.pFilesz) (0 : UInt8)).length = ph.pMemsz - ph.pFilesz :=
    List.length_replicate
  rw [zeroTail, sub64, if_pos hsize, ok_bind]
  by_cases hbss : ph.pMemsz - ph.pFilesz > 0
  swap
  · rw [if_neg hbss]
    exact .inr (.inr ⟨by omega, fun h => absurd h (by omega), m, .refl m, rfl⟩)
  rw [if_pos hbss]
  by_cases hram : ph.pMemsz - ph.pFilesz ≤ G.ram m
  swap
  · rw [alloc, if_neg hram]
    exact .inl ⟨by omega, faults_fault _⟩
  rw [alloc, if_pos hram, ok_bind, add64_eq hdst, ok_bind]
  by_cases hzeros : G.accepts m (ph.pPaddr + ph.pFilesz) (ph.pMemsz - ph.pFilesz) = true
  · obtain ⟨m', hw, hlike⟩ := loadWrite_of_accepts (hlen.symm ▸ hzeros)
    exact .inr (.inr ⟨hram, fun _ => hzeros, m', hlike, hw⟩)
  · exact .inr (.inl ⟨hram, fun h => hzeros (h (by omega)), loadWrite_of_refused (hlen.symm ▸ hzeros)⟩)

theorem zeros_of_zeroTail {m m' : G.GuestMemoryMmap} {ph : Phdr} (hsize : ph.pFilesz ≤ ph.pMemsz)
    (hdst : ph.pPaddr + ph.pFilesz < 2 ^ 64) (h : zeroTail G m ph = .ok m') :
    ph.pFilesz < ph.pMemsz → G.accepts m (ph.pPaddr + ph.pFilesz) (ph.pMemsz - ph.pFilesz) = true := by
  obtain ⟨-, f, hf⟩ | ⟨-, -, e, he⟩ | ⟨-, hzeros, -⟩ := zeroTail_cases (m := m) hsize hdst
  · rw [h] at hf
    cases hf
  · rw [h] at he
    cases he
  · exact hzeros

/-- One turn of the loop: it faults, or ends the run with an error, or lays the segment. -/
theorem loadSegment_cases (image : List UInt8) (s : LoadProgress G) (idx : Nat) {ph : Phdr}
    (hpaddr : ph.pPaddr < 2 ^ 64) (hload : ph.loadable = true) :
    (¬ModestPhdr G s.mem image ph ∧ Faults (loadSegment G image s idx ph)) ∨
    (ModestPhdr G s.mem image ph ∧ ¬Placed G s.mem image ph ∧ ∃ e, loadSegment G image s idx ph = fail e) ∨
    (ModestPhdr G s.mem image ph ∧ Placed G s.mem image ph ∧ ∃ m, Like s.mem m ∧
      loadSegment G image s idx ph = .ok ⟨m, true, max s.imageEnd (ph.pPaddr + ph.pMemsz)⟩) := by
  rw [loadSegment, if_neg (loadable_iff.mp hload)]
  by_cases hsize : ph.pFilesz > ph.pMemsz
  · rw [if_pos hsize]
    exact .inr (.inl ⟨⟨fun h => absurd h (by omega), fun h => absurd h (by omega)⟩,
      fun h => absurd h.size (by omega), _, rfl⟩)
  rw [if_neg hsize]
  have hsize' : ph.pFilesz ≤ ph.pMemsz := Nat.not_lt.mp hsize
  by_cases hstop : ph.pOffset + ph.pFilesz < 2 ^ 64
  swap
  · rw [add64, if_neg hstop]
    exact .inl ⟨fun h => hstop (h.stop hsize'), faults_fault _⟩
  rw [add64_eq hstop, ok_bind, getRange_add]
  by_cases hfile : ph.pOffset + ph.pFilesz ≤ image.length
  swap
  · rw [Vmm.get, if_neg hfile]
    exact .inr (.inl ⟨⟨fun _ => hstop, fun _ h => absurd h hfile⟩, fun h => hfile h.file, _, rfl⟩)
  rw [Vmm.get, if_pos hfile]
  have hlen : G.accepts s.mem ph.pPaddr (slice image ph.pOffset ph.pFilesz).length =
      G.accepts s.mem ph.pPaddr ph.pFilesz := by rw [length_slice hfile]
  dsimp only
  by_cases hbytes : G.accepts s.mem ph.pPaddr ph.pFilesz = true
  swap
  · obtain ⟨e, hw⟩ := loadWrite_of_refused fun h => hbytes (hlen.symm.trans h)
    rw [hw, fail_bind]
    exact .inr (.inl ⟨⟨fun _ => hstop, fun _ _ h => absurd h hbytes⟩, fun h => hbytes h.bytes, _, rfl⟩)
  obtain ⟨m, hw, hlike⟩ := loadWrite_of_accepts (hlen.trans hbytes)
  have hdst := G.lt_of_accepts hpaddr hbytes
  rw [hw, ok_bind]
  obtain ⟨hram, hf⟩ | ⟨hram, hno, e, he⟩ | ⟨hram, hzeros, m', hlike', hok⟩ := zeroTail_cases (m := m) hsize' hdst
  · rw [hlike.ram] at hram
    exact .inl ⟨fun h => absurd (h.zeros hsize' hfile hbytes) (by omega), faults_bind.mpr (.inl hf)⟩
  · rw [hlike.ram] at hram
    rw [he, fail_bind]
    exact .inr (.inl ⟨⟨fun _ => hstop, fun _ _ _ => hram⟩, fun h => hno (hlike.accepts ▸ h.zeros), _, rfl⟩)
  · rw [hlike.ram] at hram
    have htop : ph.pPaddr + ph.pMemsz < 2 ^ 64 := by
      by_cases hbss : ph.pFilesz < ph.pMemsz
      · have := G.lt_of_accepts hdst (hzeros hbss)
        omega
      · omega
    rw [hok, ok_bind, add64_eq htop]
    exact .inr (.inr ⟨⟨fun _ => hstop, fun _ _ _ => hram⟩,
      ⟨hsize', hfile, hbytes, hlike.accepts ▸ hzeros⟩, m', hlike.trans hlike', rfl⟩)

/-! ## The loop over the segments -/

/-- The headers up to the first that is not placed are modest, that one as well. -/
def ModestPhdrs (G : GuestMmap) (m : G.GuestMemoryMmap) (image : List UInt8) : List Phdr → Prop
  | [] => True
  | ph :: phdrs => (ph.loadable = true → ModestPhdr G m image ph) ∧
      ((ph.loadable = true → Placed G m image ph) → ModestPhdrs G m image phdrs)

theorem ModestPhdr.of_like {m m' : G.GuestMemoryMmap} {ph : Phdr} (h : Like m m') :
    ModestPhdr G m' image ph ↔ ModestPhdr G m image ph := by
  constructor
  · intro hp
    exact ⟨hp.stop, h.accepts ▸ h.ram ▸ hp.zeros⟩
  · intro hp
    exact ⟨hp.stop, h.accepts.symm ▸ h.ram.symm ▸ hp.zeros⟩

theorem ModestPhdrs.of_like {m m' : G.GuestMemoryMmap} {phdrs : List Phdr} (h : Like m m') :
    ModestPhdrs G m' image phdrs ↔ ModestPhdrs G m image phdrs := by
  have hplaced : ∀ ph, Placed G m' image ph ↔ Placed G m image ph := fun ph =>
    ⟨.of_like h, .of_like ⟨h.ram.symm, h.accepts.symm⟩⟩
  induction phdrs with
  | nil => exact Iff.rfl
  | cons ph phdrs ih =>
      exact and_congr (imp_congr Iff.rfl (ModestPhdr.of_like h)) (imp_congr (imp_congr Iff.rfl (hplaced ph)) ih)

/-- Where a loadable header puts the end of its segment. -/
def segmentEnds (phdrs : List Phdr) : List Nat :=
  (phdrs.filter Phdr.loadable).map fun ph => ph.pPaddr + ph.pMemsz

theorem faults_loadSegments {s : LoadProgress G} {idx : Nat} {phdrs : List Phdr}
    (hpaddr : ∀ ph ∈ phdrs, ph.pPaddr < 2 ^ 64) :
    Faults (loadSegments G image s idx phdrs) ↔ ¬ModestPhdrs G s.mem image phdrs := by
  induction phdrs generalizing s idx with
  | nil => simp [loadSegments, ModestPhdrs]
  | cons ph phdrs ih =>
      obtain ⟨hhead, hrest⟩ := List.forall_mem_cons.mp hpaddr
      rw [loadSegments, ModestPhdrs]
      by_cases hload : ph.loadable = true
      · obtain ⟨hbad, hf⟩ | ⟨hgood, hno, e, he⟩ | ⟨hgood, hplaced, m, hlike, hok⟩ :=
          loadSegment_cases image s idx hhead hload
        · simp only [hbad, hload, forall_const, false_and, not_false_eq_true, iff_true]
          exact faults_bind.mpr (.inl hf)
        · simp [he, hgood, hno, hload]
        · rw [hok, ok_bind, ih hrest, ModestPhdrs.of_like hlike]
          simp [hgood, hplaced]
      · rw [loadSegment_skip hload, ok_bind, ih hrest]
        simp [hload]

/-- The running maximum: every end is below it, and it is one of them or what it was. -/
theorem imageEnd_loadSegments {s s' : LoadProgress G} {idx : Nat} {phdrs : List Phdr}
    (hpaddr : ∀ ph ∈ phdrs, ph.pPaddr < 2 ^ 64) (h : loadSegments G image s idx phdrs = .ok s') :
    s'.imageEnd = (segmentEnds phdrs).foldl max s.imageEnd ∧
      s'.loadedAny = (s.loadedAny || !(segmentEnds phdrs).isEmpty) := by
  induction phdrs generalizing s idx with
  | nil =>
      cases h
      exact ⟨rfl, by simp [segmentEnds]⟩
  | cons ph phdrs ih =>
      obtain ⟨hhead, hrest⟩ := List.forall_mem_cons.mp hpaddr
      obtain ⟨s₁, hs₁, h⟩ := bind_eq_ok.mp h
      obtain ⟨hend, hany⟩ := ih hrest h
      by_cases hload : ph.loadable = true
      · have hcons : segmentEnds (ph :: phdrs) = (ph.pPaddr + ph.pMemsz) :: segmentEnds phdrs := by
          rw [segmentEnds, List.filter_cons_of_pos hload, List.map_cons, segmentEnds]
        obtain ⟨-, f, hf⟩ | ⟨-, -, e, he⟩ | ⟨-, -, m, -, hok⟩ :=
          loadSegment_cases image s idx hhead hload
        · rw [hf] at hs₁
          cases hs₁
        · rw [he] at hs₁
          cases hs₁
        · rw [hok] at hs₁
          cases hs₁
          rw [hend, hany, hcons]
          exact ⟨rfl, by simp⟩
      · rw [loadSegment_skip hload] at hs₁
        cases hs₁
        have hcons : segmentEnds (ph :: phdrs) = segmentEnds phdrs := by
          rw [segmentEnds, List.filter_cons_of_neg hload, segmentEnds]
        rw [hend, hany, hcons]
        exact ⟨rfl, rfl⟩

theorem isGreatest_foldl_max {xs : List Nat} (hne : xs ≠ []) : IsGreatest {n | n ∈ xs} (xs.foldl max 0) := by
  obtain ⟨x, xs, rfl⟩ := List.exists_cons_of_ne_nil hne
  have hmax : (x :: xs).max? = some ((x :: xs).foldl max 0) := by
    rw [List.max?_cons', List.foldl_cons, Nat.zero_max]
  exact List.max?_eq_some_iff.mp hmax

/-! ## The loader -/

/-- Bytes of a slice, which are no more than `isize::MAX`. -/
abbrev Image := { bytes : List UInt8 // bytes.length < 2 ^ 63 }

/-- What a kernel image must keep to for the loader not to fault: its header table has room in
the host and does not start in the last four bytes of the address space, and the headers up
to the first that is not placed are modest. -/
def Modest (G : GuestMmap) (m : G.GuestMemoryMmap) (image : List UInt8) : Prop :=
  ∀ phoff phentsize phnum, Header image phoff phentsize phnum →
    phnum * PHDR_BYTES ≤ G.ram m ∧ (phnum = 0 ∨ phoff + 4 < 2 ^ 64) ∧
      ((∀ i < phnum, phoff + i * phentsize + 48 ≤ image.length) →
        ModestPhdrs G m image ((List.range phnum).map fun i => phdrAt image (phoff + i * phentsize)))

/-- The loader comes back with a kernel or an error, and the end of the image it reports is
the highest end of a segment it loaded. -/
structure Robust (G : GuestMmap) (m : G.GuestMemoryMmap) (image : List UInt8) : Prop where
  returns : ∃ r : Except LoaderError (LoadedKernel × G.GuestMemoryMmap), loadKernel G image m = lift r
  imageEnd : ∀ {k m'}, loadKernel G image m = .ok (k, m') → ∃ phdrs, Vmm.parsePhdrs image = .ok phdrs ∧
    IsGreatest {n | ∃ ph ∈ phdrs, ph.loadable = true ∧ n = ph.pPaddr + ph.pMemsz} k.imageEnd

theorem not_faults_iff {α : Type} {x : Run α} : ¬Faults x ↔ ∃ r : Except LoaderError α, x = lift r := by
  constructor
  · intro h
    cases x with
    | ok a => exact ⟨.ok a, rfl⟩
    | error stop =>
        cases stop with
        | fault f => exact absurd (faults_fault f) h
        | error e => exact ⟨.error e, rfl⟩
  · rintro ⟨r, rfl⟩
    exact not_faults_lift r

/-- Behind the headers and the segments nothing faults. -/
theorem faults_loadKernel {m : G.GuestMemoryMmap} (himage : image.length < 2 ^ 63) :
    Faults (loadKernel G image m) ↔ Faults (parsePhdrs (G.ram m) image) ∨
      ∃ phdrs, parsePhdrs (G.ram m) image = .ok phdrs ∧
        Faults (loadSegments G image ⟨m, false, 0⟩ 0 phdrs) := by
  have hrest : ∀ (phdrs : List Phdr) (s : LoadProgress G), ¬Faults
      ((do
        if !s.loadedAny then fail .noLoadSegments
        match ← findTbEntry image phdrs with
        | none => fail .missingTbNote
        | some entry => return (⟨entry, s.imageEnd⟩, s.mem)) : Run (LoadedKernel × G.GuestMemoryMmap)) := by
    intro phdrs s
    rw [findTbEntry_eq himage]
    cases s.loadedAny with
    | false => exact not_faults_fail _
    | true =>
        cases Vmm.findTbEntry image phdrs with
        | error e => exact not_faults_lift (.error e)
        | ok entry =>
            cases entry with
            | none => exact not_faults_fail _
            | some entry => exact not_faults_ok _
  rw [loadKernel, faults_bind]
  refine or_congr Iff.rfl (exists_congr fun phdrs => and_congr Iff.rfl ?_)
  rw [faults_bind]
  refine or_iff_left ?_
  rintro ⟨s, -, hf⟩
  exact hrest phdrs s hf

/-- A parse without faults is that of the unguarded parser. -/
theorem parsePhdrs_eq_of_not_faults {ram : Nat} (himage : image.length < 2 ^ 63)
    (h : ¬Faults (parsePhdrs ram image)) : parsePhdrs ram image = lift (Vmm.parsePhdrs image) := by
  obtain ⟨phoff, phentsize, phnum, -, hh, -⟩ | ⟨e, hat, hvmm, -⟩ := tableAt_cases image
  · have hgood : ¬(ram < phnum * PHDR_BYTES ∨ 0 < phnum ∧ 2 ^ 64 ≤ phoff + 4) := fun hbad =>
      h ((faults_parsePhdrs himage).mpr ⟨phoff, phentsize, phnum, hh, hbad⟩)
    exact parsePhdrs_eq himage hh (by omega) (by omega)
  · rw [parsePhdrs, hat, fail_bind, hvmm]
    rfl

theorem vmm_parsePhdrs_of_ok {ram : Nat} {phdrs : List Phdr} (himage : image.length < 2 ^ 63)
    (h : parsePhdrs ram image = .ok phdrs) : Vmm.parsePhdrs image = .ok phdrs :=
  ok_of_lift ((parsePhdrs_eq_of_not_faults himage (h ▸ not_faults_ok phdrs)).symm.trans h)

theorem faults_iff_not_modest {m : G.GuestMemoryMmap} (himage : image.length < 2 ^ 63) :
    Faults (loadKernel G image m) ↔ ¬Modest G m image := by
  rw [faults_loadKernel himage]
  constructor
  · rintro (hparse | ⟨phdrs, hparse, hload⟩) hmodest
    · obtain ⟨phoff, phentsize, phnum, hh, hbad⟩ := (faults_parsePhdrs himage).mp hparse
      obtain ⟨hram, htop, -⟩ := hmodest phoff phentsize phnum hh
      omega
    · have hvmm := vmm_parsePhdrs_of_ok himage hparse
      obtain ⟨phoff, phentsize, phnum, hh, hfile, rfl⟩ := vmm_parsePhdrs_eq_ok.mp hvmm
      exact (faults_loadSegments (pPaddr_lt_of_parsePhdrs hvmm)).mp hload
        ((hmodest phoff phentsize phnum hh).2.2 hfile)
  · intro hno
    by_contra hcalm
    obtain ⟨hparse, hload⟩ := not_or.mp hcalm
    refine hno fun phoff phentsize phnum hh => ?_
    have hgood : ¬(G.ram m < phnum * PHDR_BYTES ∨ 0 < phnum ∧ 2 ^ 64 ≤ phoff + 4) := fun hbad =>
      hparse ((faults_parsePhdrs himage).mpr ⟨phoff, phentsize, phnum, hh, hbad⟩)
    refine ⟨by omega, by omega, fun hfile => ?_⟩
    by_contra hbad
    have hvmm := vmm_parsePhdrs_eq_ok.mpr ⟨phoff, phentsize, phnum, hh, hfile, rfl⟩
    have hok : parsePhdrs (G.ram m) image = lift (Vmm.parsePhdrs image) :=
      parsePhdrs_eq himage hh (by omega) (by omega)
    rw [hvmm] at hok
    exact hload ⟨_, hok, (faults_loadSegments (pPaddr_lt_of_parsePhdrs hvmm)).mpr hbad⟩

theorem imageEnd_loadKernel {m m' : G.GuestMemoryMmap} {k : LoadedKernel} (himage : image.length < 2 ^ 63)
    (h : loadKernel G image m = .ok (k, m')) : ∃ phdrs, Vmm.parsePhdrs image = .ok phdrs ∧
      IsGreatest {n | ∃ ph ∈ phdrs, ph.loadable = true ∧ n = ph.pPaddr + ph.pMemsz} k.imageEnd := by
  obtain ⟨phdrs, hparse, h⟩ := bind_eq_ok.mp h
  obtain ⟨s, hload, h⟩ := bind_eq_ok.mp h
  have hvmm := vmm_parsePhdrs_of_ok himage hparse
  obtain ⟨hend, hany⟩ := imageEnd_loadSegments (pPaddr_lt_of_parsePhdrs hvmm) hload
  refine ⟨phdrs, hvmm, ?_⟩
  have hset : {n | ∃ ph ∈ phdrs, ph.loadable = true ∧ n = ph.pPaddr + ph.pMemsz} = {n | n ∈ segmentEnds phdrs} := by
    ext n
    simp only [segmentEnds, Set.mem_ofPred_eq, List.mem_map, List.mem_filter, and_assoc, eq_comm]
  have hne : segmentEnds phdrs ≠ [] := by
    intro hnil
    rw [hnil] at hany
    rw [hany] at h
    cases h
  have hk : k.imageEnd = s.imageEnd := by
    split at h
    · cases h
    · obtain ⟨entry, -, h⟩ := bind_eq_ok.mp h
      split at h
      · cases h
      · cases h
        rfl
  rw [hset, hk, hend]
  exact isGreatest_foldl_max hne

/-- The loader is robust against exactly the modest images. -/
theorem robust_iff_modest (image : Image) (G : GuestMmap) (m : G.GuestMemoryMmap) :
    Robust G m image.1 ↔ Modest G m image.1 := by
  have hfault := not_congr (faults_iff_not_modest (m := m) image.2)
  rw [not_not] at hfault
  constructor
  · intro h
    exact hfault.mp (not_faults_iff.mpr h.returns)
  · intro h
    exact ⟨not_faults_iff.mp (hfault.mpr h), imageEnd_loadKernel image.2⟩

end Load

/-! ## The unguarded loader

Over a memory of one range a run without faults is a run of the loader that does not look
for them. -/

section Guest

variable {V : VmMemory}
  {hempty : ∀ m m' a, V.size m = V.size m' → ((V.writeSlice m [] a).1 = .ok () ↔ (V.writeSlice m' [] a).1 = .ok ())}

def LoadProgress.vmm (s : LoadProgress (V.guest hempty)) : Vmm.LoadProgress V := ⟨s.mem, s.loadedAny, s.imageEnd⟩

theorem loadWrite_eq (m : (V.guest hempty).GuestMemoryMmap) (paddr : Nat) (bytes : List UInt8) :
    loadWrite (V.guest hempty) m paddr bytes = lift (Vmm.loadWrite V m paddr bytes) := by
  have hwrite : (V.guest hempty).writeSlice m bytes paddr = V.writeSlice m bytes paddr := rfl
  unfold loadWrite Vmm.loadWrite VmMemory.write
  rw [hwrite]
  dsimp only
  cases V.writeSlice m bytes paddr with
  | mk r m' => cases r <;> rfl

theorem zeroTail_eq {m : (V.guest hempty).GuestMemoryMmap} {ph : Phdr} (hsize : ph.pFilesz ≤ ph.pMemsz)
    (hdst : ph.pPaddr + ph.pFilesz < 2 ^ 64) (hf : ¬Faults (zeroTail (V.guest hempty) m ph)) :
    zeroTail (V.guest hempty) m ph = lift (if ph.pMemsz - ph.pFilesz > 0 then
      Vmm.loadWrite V m ((ph.pPaddr + ph.pFilesz) % 2 ^ 64) (List.replicate (ph.pMemsz - ph.pFilesz) 0)
      else pure m) := by
  rw [zeroTail, sub64, if_pos hsize, ok_bind] at hf ⊢
  split
  case isTrue hbss =>
    rw [if_pos hbss] at hf
    by_cases hram : ph.pMemsz - ph.pFilesz ≤ (V.guest hempty).ram m
    · rw [alloc, if_pos hram, ok_bind, add64_eq hdst, ok_bind, loadWrite_eq, Nat.mod_eq_of_lt hdst]
    · rw [alloc, if_neg hram] at hf
      exact absurd (faults_fault _) hf
  case isFalse => rfl

/-- Behind the copy: the zeroed tail and the end of the image. -/
theorem afterCopy_eq {m : (V.guest hempty).GuestMemoryMmap} {ph : Phdr} {imageEnd : Nat} (hsize : ph.pFilesz ≤ ph.pMemsz)
    (hdst : ph.pPaddr + ph.pFilesz < 2 ^ 64) (hf : ¬Faults (zeroTail (V.guest hempty) m ph)) :
    (zeroTail (V.guest hempty) m ph >>= fun m' => add64 ph.pPaddr ph.pMemsz >>= fun top =>
      pure (LoadProgress.mk m' true (max imageEnd top))).map LoadProgress.vmm =
    lift ((if ph.pMemsz - ph.pFilesz > 0 then
      Vmm.loadWrite V m ((ph.pPaddr + ph.pFilesz) % 2 ^ 64) (List.replicate (ph.pMemsz - ph.pFilesz) 0)
      else pure m) >>= fun m' => pure ⟨m', true, max imageEnd ((ph.pPaddr + ph.pMemsz) % 2 ^ 64)⟩) := by
  have hzeros := zeroTail_eq hsize hdst hf
  generalize (if ph.pMemsz - ph.pFilesz > 0 then
    Vmm.loadWrite V m ((ph.pPaddr + ph.pFilesz) % 2 ^ 64) (List.replicate (ph.pMemsz - ph.pFilesz) 0)
    else pure m) = zeroed at hzeros ⊢
  cases zeroed with
  | error e =>
      rw [hzeros]
      rfl
  | ok m' =>
      have hacc := zeros_of_zeroTail hsize hdst hzeros
      have htop : ph.pPaddr + ph.pMemsz < 2 ^ 64 := by
        by_cases hbss : ph.pFilesz < ph.pMemsz
        · have := (V.guest hempty).lt_of_accepts hdst (hacc hbss)
          omega
        · omega
      rw [hzeros]
      show Except.map LoadProgress.vmm (add64 ph.pPaddr ph.pMemsz >>= _) = _
      rw [add64_eq htop, ok_bind, Nat.mod_eq_of_lt htop]
      rfl

theorem loadSegment_eq {s : LoadProgress (V.guest hempty)} {idx : Nat} {ph : Phdr} (hpaddr : ph.pPaddr < 2 ^ 64)
    (hf : ¬Faults (loadSegment (V.guest hempty) image s idx ph)) :
    (loadSegment (V.guest hempty) image s idx ph).map LoadProgress.vmm =
      lift (Vmm.loadSegment V image s.vmm idx ph) := by
  rw [loadSegment] at hf ⊢
  rw [Vmm.loadSegment]
  split
  · rfl
  case isFalse hload =>
    rw [if_neg hload] at hf
    split
    · rfl
    case isFalse hsize =>
      rw [if_neg hsize] at hf
      by_cases hstop : ph.pOffset + ph.pFilesz < 2 ^ 64
      swap
      · rw [add64, if_neg hstop] at hf
        exact absurd (faults_fault _) hf
      rw [add64_eq hstop, ok_bind, getRange_add] at hf ⊢
      cases hget : Vmm.get image ph.pOffset ph.pFilesz with
      | none => rfl
      | some src =>
          rw [hget] at hf
          dsimp only at hf ⊢
          have hbytes : src.length = ph.pFilesz := by
            obtain ⟨hin, rfl⟩ := get_eq_some.mp hget
            exact length_slice hin
          have hwrite : loadWrite (V.guest hempty) s.mem ph.pPaddr src = lift (Vmm.loadWrite V s.mem ph.pPaddr src) :=
            loadWrite_eq s.mem ph.pPaddr src
          cases hw : loadWrite (V.guest hempty) s.mem ph.pPaddr src with
          | error stop =>
              rw [lift_bind, LoadProgress.vmm, ← hwrite, hw]
              rfl
          | ok m =>
              have hdst := (V.guest hempty).lt_of_accepts hpaddr (hbytes ▸ accepts_of_loadWrite hw)
              rw [hw] at hf hwrite
              rw [ok_bind] at hf ⊢
              rw [lift_bind, LoadProgress.vmm, ← hwrite, ok_bind]
              have htail : ¬Faults (zeroTail (V.guest hempty) m ph) := fun h => hf (faults_bind.mpr (.inl h))
              refine (afterCopy_eq (Nat.not_lt.mp hsize) hdst htail).trans ?_
              split
              · rfl
              · rfl

theorem loadSegments_eq {s : LoadProgress (V.guest hempty)} {idx : Nat} {phdrs : List Phdr}
    (hpaddr : ∀ ph ∈ phdrs, ph.pPaddr < 2 ^ 64) (hf : ¬Faults (loadSegments (V.guest hempty) image s idx phdrs)) :
    (loadSegments (V.guest hempty) image s idx phdrs).map LoadProgress.vmm =
      lift (Vmm.loadSegments V image s.vmm idx phdrs) := by
  induction phdrs generalizing s idx with
  | nil => rfl
  | cons ph phdrs ih =>
      obtain ⟨hhead, hrest⟩ := List.forall_mem_cons.mp hpaddr
      rw [loadSegments] at hf ⊢
      rw [Vmm.loadSegments, lift_bind,
        ← loadSegment_eq hhead fun h => hf (faults_bind.mpr (.inl h))]
      cases hs : loadSegment (V.guest hempty) image s idx ph with
      | error e => rfl
      | ok s₁ => exact ih hrest fun h => hf (faults_bind.mpr (.inr ⟨s₁, hs, h⟩))

/-- On a modest image the guard is never needed. -/
theorem loadKernel_eq_of_modest {m : (V.guest hempty).GuestMemoryMmap} (himage : image.length < 2 ^ 63)
    (h : Modest (V.guest hempty) m image) :
    loadKernel (V.guest hempty) image m = lift (Vmm.loadKernel V image m) := by
  have hno : ¬Faults (loadKernel (V.guest hempty) image m) := fun hf => (faults_iff_not_modest himage).mp hf h
  obtain ⟨hparse, hload⟩ := not_or.mp (mt (faults_loadKernel himage).mpr hno)
  rw [loadKernel, parsePhdrs_eq_of_not_faults himage hparse, Vmm.loadKernel, lift_bind]
  cases hvmm : Vmm.parsePhdrs image with
  | error e => rfl
  | ok phdrs =>
      have hr := (parsePhdrs_eq_of_not_faults himage hparse).trans (congrArg lift hvmm)
      have hs := loadSegments_eq (pPaddr_lt_of_parsePhdrs hvmm) fun hf => hload ⟨phdrs, hr, hf⟩
      show (loadSegments _ image _ 0 phdrs >>= _) = lift (Vmm.loadSegments V image _ 0 phdrs >>= _)
      rw [lift_bind]
      have hvmm₀ : LoadProgress.vmm (⟨m, false, 0⟩ : LoadProgress (V.guest hempty)) = ⟨m, false, 0⟩ := rfl
      rw [hvmm₀] at hs
      rw [← hs]
      cases loadSegments (V.guest hempty) image ⟨m, false, 0⟩ 0 phdrs with
      | error stop => rfl
      | ok s =>
          show _ = lift _
          simp only [findTbEntry_eq himage]
          obtain ⟨mem, any, imageEnd⟩ := s
          cases any with
          | false => rfl
          | true =>
              cases Vmm.findTbEntry image phdrs with
              | error e => rfl
              | ok entry => cases entry <;> rfl

end Guest

/-! ## Two images

One segment each, over a guest with a page of memory. -/

theorem flat_empty (m m' : flat.GuestMemoryMmap) (a : Nat) (h : flat.size m = flat.size m') :
    (flat.writeSlice m [] a).1 = .ok () ↔ (flat.writeSlice m' [] a).1 = .ok () := by
  have hsize : Flat.size m = Flat.size m' := h
  show (Flat.writeSlice m [] a).1 = .ok () ↔ (Flat.writeSlice m' [] a).1 = .ok ()
  simp only [Flat.writeSlice, hsize]

theorem page_size_lt : 4096 < 2 ^ 64 := by decide

def page : Flat := ⟨4096, fun _ => 0, page_size_lt⟩

/-- A header table of one `PT_LOAD` header without file bytes. -/
def imageOf (phoff memsz : Nat) : List UInt8 :=
  [0x7f, 0x45, 0x4c, 0x46, ELFCLASS64, ELFDATA2LSB] ++ List.replicate 12 0 ++ le 2 EM_X86_64 ++
    List.replicate 12 0 ++ le 8 phoff ++ List.replicate 14 0 ++ le 2 PHDR_SIZE ++ le 2 1 ++ List.replicate 6 0 ++
    le 4 PT_LOAD ++ List.replicate 36 0 ++ le 8 memsz ++ List.replicate 8 0

theorem not_robust_of_not_modest {G : GuestMmap} {m : G.GuestMemoryMmap} (himage : image.length < 2 ^ 63)
    (h : ¬Modest G m image) : ¬Robust G m image := fun hr =>
  not_faults_iff.mpr hr.returns ((faults_iff_not_modest himage).mpr h)

/-- A segment of `2 ^ 63` bytes of zeros, and a header table in the last bytes of the address
space: the first is asked of the host, the second is added to. -/
theorem not_robust : ¬Robust (flat.guest flat_empty) page (imageOf 64 (2 ^ 63)) ∧
    ¬Robust (flat.guest flat_empty) page (imageOf (2 ^ 64 - 1) 4096) := by
  constructor
  · refine not_robust_of_not_modest (by decide) fun h => ?_
    have hheader : Header (imageOf 64 (2 ^ 63)) 64 56 1 := by
      constructor <;> decide
    have hmodest := ((h 64 56 1 hheader).2.2 (by decide)).1 (by decide)
    have hzeros := hmodest.zeros (by decide) (by decide) (by decide)
    exact absurd hzeros (by decide)
  · refine not_robust_of_not_modest (by decide) fun h => ?_
    have hheader : Header (imageOf (2 ^ 64 - 1) 4096) (2 ^ 64 - 1) 56 1 := by
      constructor <;> decide
    exact absurd (h (2 ^ 64 - 1) 56 1 hheader).2.1 (by decide)

end Strict

end Yuva.Vmm
