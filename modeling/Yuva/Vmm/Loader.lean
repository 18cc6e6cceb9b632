/-
# `Yuva.Vmm.Loader` — the kernel image in guest memory

`load_kernel` of `tb-vmm/src/loader.rs`.  Every `PT_LOAD` segment is copied to its physical
address, its file bytes first and then the zeros up to `p_memsz`, in the order of the program
headers, so that a later segment wins where two overlap.

**Proved here.**  A load that succeeds leaves the segments laid over the memory as it was
(`laid_loadKernel`).
-/
import Yuva.Lib.Checked
import Yuva.Vmm.Elf
import Yuva.Vmm.Memory

namespace Yuva.Vmm

open Yuva.Bytes Yuva.Boot Yuva.Overlay Yuva.Checked

structure LoadedKernel where
  entry : BitVec 64
  imageEnd : Nat
  deriving DecidableEq, Repr

/-- The variables of the loop over the program headers. -/
structure LoadProgress (V : VmMemory) where
  mem : V.GuestMemoryMmap
  loadedAny : Bool
  imageEnd : Nat

section Load

variable {V : VmMemory}

/-- A write of the loader; the error names the address. -/
def loadWrite (V : VmMemory) (m : V.GuestMemoryMmap) (paddr : Nat) (bytes : List UInt8) :
    Except LoaderError V.GuestMemoryMmap :=
  (V.write m (paddr, bytes)).mapError (.guestWrite paddr)

def loadSegment (V : VmMemory) (image : List UInt8) (s : LoadProgress V) (index : Nat) (ph : Phdr) :
    Except LoaderError (LoadProgress V) :=
  if ph.pType ≠ PT_LOAD ∨ ph.pMemsz = 0 then .ok s
  else if ph.pFilesz > ph.pMemsz then .error (.badSegmentSize index)
  else
    match get image ph.pOffset ph.pFilesz with
    | none => .error (.segmentOutOfFile index)
    | some src => do
        let m ← loadWrite V s.mem ph.pPaddr src
        let bss := ph.pMemsz - ph.pFilesz
        let m ← if bss > 0 then
          loadWrite V m ((ph.pPaddr + ph.pFilesz) % 2 ^ 64) (List.replicate bss 0)
        else pure m
        return ⟨m, true, max s.imageEnd ((ph.pPaddr + ph.pMemsz) % 2 ^ 64)⟩

def loadSegments (V : VmMemory) (image : List UInt8) :
    LoadProgress V → Nat → List Phdr → Except LoaderError (LoadProgress V)
  | s, _, [] => .ok s
  | s, index, ph :: phdrs => do
      let s ← loadSegment V image s index ph
      loadSegments V image s (index + 1) phdrs

def loadKernel (V : VmMemory) (image : List UInt8) (mem : V.GuestMemoryMmap) :
    Except LoaderError (LoadedKernel × V.GuestMemoryMmap) := do
  let phdrs ← parsePhdrs image
  let s ← loadSegments V image ⟨mem, false, 0⟩ 0 phdrs
  if !s.loadedAny then throw .noLoadSegments
  match ← findTbEntry image phdrs with
  | none => throw .missingTbNote
  | some entry => return (⟨entry, s.imageEnd⟩, s.mem)

/-! ## Where a header's addresses come from -/

theorem rd_lt {n off v : Nat} {b : List UInt8} {what : String} (h : rd n b off what = .ok v) : v < 256 ^ n := by
  rw [rd] at h
  split at h
  case h_1 s hs =>
    obtain ⟨hlen, rfl⟩ := get_eq_some.mp hs
    cases h
    have := unle_lt (slice b off n)
    rwa [length_slice hlen] at this
  case h_2 => cases h

theorem pPaddr_lt_of_parsePhdr {image : List UInt8} {base : Nat} {ph : Phdr}
    (h : parsePhdr image base = .ok ph) : ph.pPaddr < 2 ^ 64 := by
  obtain ⟨_, -, h⟩ := bind_eq_ok.mp h
  obtain ⟨_, -, h⟩ := bind_eq_ok.mp h
  obtain ⟨paddr, hpaddr, h⟩ := bind_eq_ok.mp h
  obtain ⟨_, -, h⟩ := bind_eq_ok.mp h
  obtain ⟨_, -, h⟩ := bind_eq_ok.mp h
  cases h
  exact rd_lt hpaddr

theorem mem_of_mapM_eq_ok {ε α β : Type} {f : α → Except ε β} {xs : List α} {ys : List β}
    (h : xs.mapM f = .ok ys) : ∀ y ∈ ys, ∃ x, f x = .ok y := by
  induction xs generalizing ys with
  | nil =>
      cases h
      simp
  | cons x xs ih =>
      rw [List.mapM_cons] at h
      obtain ⟨y, hy, h⟩ := bind_eq_ok.mp h
      obtain ⟨ys', hys, h⟩ := bind_eq_ok.mp h
      cases h
      intro z hz
      rcases List.mem_cons.mp hz with rfl | hz
      · exact ⟨x, hy⟩
      · exact ih hys z hz

theorem pPaddr_lt_of_parsePhdrs {image : List UInt8} {phdrs : List Phdr} (h : parsePhdrs image = .ok phdrs) :
    ∀ ph ∈ phdrs, ph.pPaddr < 2 ^ 64 := by
  unfold parsePhdrs at h
  dsimp only at h
  split at h
  · cases h
  split at h
  · cases h
  split at h
  · cases h
  obtain ⟨machine, -, h⟩ := bind_eq_ok.mp h
  split at h
  · cases h
  obtain ⟨phoff, -, h⟩ := bind_eq_ok.mp h
  obtain ⟨phentsize, -, h⟩ := bind_eq_ok.mp h
  obtain ⟨phnum, -, h⟩ := bind_eq_ok.mp h
  split at h
  · cases h
  intro ph hph
  obtain ⟨i, hi⟩ := mem_of_mapM_eq_ok h ph hph
  exact pPaddr_lt_of_parsePhdr hi

/-! ## The segments -/

/-- A segment as it should stand in memory: its file bytes, then zeros up to `p_memsz`. -/
def segment (image : List UInt8) (ph : Phdr) : Piece UInt8 :=
  (ph.pPaddr, slice image ph.pOffset ph.pFilesz ++ List.replicate (ph.pMemsz - ph.pFilesz) 0)

/-- The headers the loop does not skip. -/
def Phdr.loadable (ph : Phdr) : Bool := ph.pType = PT_LOAD && ph.pMemsz ≠ 0

def segments (image : List UInt8) (phdrs : List Phdr) : List (Piece UInt8) :=
  (phdrs.filter Phdr.loadable).map (segment image)

theorem laid_loadWrite {m m' : V.GuestMemoryMmap} {paddr : Nat} {bytes : List UInt8}
    (h : loadWrite V m paddr bytes = .ok m') : VmMemory.Laid m [(paddr, bytes)] m' :=
  VmMemory.laid_write (ok_of_mapError h)

/-- One turn of the loop lays one segment, or none. -/
theorem laid_loadSegment {image : List UInt8} {s s' : LoadProgress V} {index : Nat} {ph : Phdr}
    (hpaddr : ph.pPaddr < 2 ^ 64) (h : loadSegment V image s index ph = .ok s') :
    VmMemory.Laid s.mem (segments image [ph]) s'.mem := by
  rw [loadSegment] at h
  split at h
  case isTrue hskip =>
    have hnone : segments image [ph] = [] := by
      rw [segments, List.filter_cons_of_neg]
      · rfl
      · simp only [Phdr.loadable, Bool.and_eq_true, decide_eq_true_eq, not_and_or]
        exact hskip.imp id not_not.mpr
    cases h
    rw [hnone]
    exact .nil _
  case isFalse hload =>
    have hone : segments image [ph] = [segment image ph] := by
      rw [segments, List.filter_cons_of_pos]
      · rfl
      · simp only [Phdr.loadable, Bool.and_eq_true, decide_eq_true_eq]
        exact ⟨not_not.mp fun hn => hload (.inl hn), fun hn => hload (.inr hn)⟩
    rw [hone]
    split at h
    · cases h
    case isFalse hsize =>
      split at h
      case h_1 => cases h
      case h_2 src hsrc =>
        obtain ⟨hfile, rfl⟩ := get_eq_some.mp hsrc
        have hlen := length_slice hfile
        obtain ⟨m₁, hm₁, h⟩ := bind_eq_ok.mp h
        have hlaid := laid_loadWrite hm₁
        dsimp only at h
        split at h
        case isTrue hbss =>
          obtain ⟨m₂, hm₂, h⟩ := bind_eq_ok.mp h
          cases h
          -- a write that succeeded ends below 2^64, so the address of the zeros does not wrap
          have hdst : (ph.pPaddr + ph.pFilesz) % 2 ^ 64 =
              ph.pPaddr + (slice image ph.pOffset ph.pFilesz).length := by
            rw [hlen, Nat.mod_eq_of_lt]
            by_cases hnil : ph.pFilesz = 0
            · rwa [hnil, Nat.add_zero]
            · have hin := hlaid.inside _ (List.mem_singleton.mpr rfl)
                (List.ne_nil_of_length_pos (by simp only [hlen]; omega))
              have hlt := V.size_lt s.mem
              simp only [hlen] at hin
              omega
          rw [hdst] at hm₂
          exact (hlaid.trans (laid_loadWrite hm₂)).join
        case isFalse hbss =>
          cases h
          have hzero : ph.pMemsz - ph.pFilesz = 0 := by omega
          rw [segment, hzero, List.replicate_zero, List.append_nil]
          exact hlaid

theorem laid_loadSegments {image : List UInt8} {s s' : LoadProgress V} {index : Nat} {phdrs : List Phdr}
    (hpaddr : ∀ ph ∈ phdrs, ph.pPaddr < 2 ^ 64) (h : loadSegments V image s index phdrs = .ok s') :
    VmMemory.Laid s.mem (segments image phdrs) s'.mem := by
  induction phdrs generalizing s index with
  | nil =>
      rw [← Except.ok.inj h]
      exact .nil _
  | cons ph phdrs ih =>
      obtain ⟨s₁, hs₁, h⟩ := bind_eq_ok.mp h
      have hone := laid_loadSegment (hpaddr ph List.mem_cons_self) hs₁
      have hrest := ih (fun ph' hph => hpaddr ph' (List.mem_cons_of_mem _ hph)) h
      have hsplit : segments image (ph :: phdrs) = segments image [ph] ++ segments image phdrs := by
        rw [segments, segments, segments, ← List.map_append, ← List.filter_append, List.singleton_append]
      rw [hsplit]
      exact hone.trans hrest

/-- The segments of the image, laid over the memory in the order of their headers. -/
theorem laid_loadKernel {image : List UInt8} {m m' : V.GuestMemoryMmap} {k : LoadedKernel}
    (h : loadKernel V image m = .ok (k, m')) : ∃ phdrs, parsePhdrs image = .ok phdrs ∧
      findTbEntry image phdrs = .ok (some k.entry) ∧ VmMemory.Laid m (segments image phdrs) m' := by
  obtain ⟨phdrs, hparse, h⟩ := bind_eq_ok.mp h
  obtain ⟨s, hload, h⟩ := bind_eq_ok.mp h
  dsimp only at h
  split at h
  · cases h
  obtain ⟨entry, hentry, h⟩ := bind_eq_ok.mp h
  split at h
  · cases h
  · cases h
    exact ⟨phdrs, hparse, hentry, laid_loadSegments (pPaddr_lt_of_parsePhdrs hparse) hload⟩

end Load

end Yuva.Vmm
