/-
# `Yuva.Vmm.Memory` — guest memory

Guest memory as the monitor reaches it, through the crate `vm-memory`.  The crate is not
part of the repository; `VmMemory` is what the monitor relies on of it:

    a range inside the memory     is read, or written, and no other byte changes
    a range that runs out of it   is an error; a write may leave some of its bytes behind
    an empty range                may be either, and changes nothing

`flat` is an instance.  `GuestRam` is `tb-vmm/src/memory.rs`.
-/
import Yuva.Boot.Info
import Yuva.Lib.Overlay

namespace Yuva.Vmm

open Yuva.Bytes Yuva.Boot Yuva.Overlay

structure VmMemory where
  GuestMemoryMmap : Type
  size : GuestMemoryMmap → Nat
  byte : GuestMemoryMmap → Nat → UInt8
  /-- One range from address zero. -/
  fromRanges : Nat → Except String GuestMemoryMmap
  readSlice : GuestMemoryMmap → Nat → Nat → Except String (List UInt8)
  /-- The outcome, and the memory after it. -/
  writeSlice : GuestMemoryMmap → List UInt8 → Nat → Except String Unit × GuestMemoryMmap
  size_lt : ∀ m, size m < 2 ^ 64
  size_fromRanges : ∀ {n m}, fromRanges n = .ok m → size m = n
  read_inside : ∀ {m a n}, 0 < n → a + n ≤ size m →
    readSlice m a n = .ok ((List.range n).map fun i => byte m (a + i))
  read_outside : ∀ {m a n}, 0 < n → size m < a + n → ∃ e, readSlice m a n = .error e
  read_empty : ∀ {m a bs}, readSlice m a 0 = .ok bs → bs = []
  size_writeSlice : ∀ m bs a, size (writeSlice m bs a).2 = size m
  write_inside : ∀ {m bs a}, bs ≠ [] → a + bs.length ≤ size m → (writeSlice m bs a).1 = .ok ()
  write_outside : ∀ {m bs a}, bs ≠ [] → size m < a + bs.length → ∃ e, (writeSlice m bs a).1 = .error e
  byte_written : ∀ {m bs a}, (writeSlice m bs a).1 = .ok () →
    ∀ i, byte (writeSlice m bs a).2 i = (Piece.look (a, bs) i).getD (byte m i)
  byte_beside : ∀ {m bs a i}, Piece.look (a, bs) i = none → byte (writeSlice m bs a).2 i = byte m i

namespace VmMemory

variable {V : VmMemory}

/-- A write that succeeded. -/
def write (V : VmMemory) (m : V.GuestMemoryMmap) (p : Piece UInt8) : Except String V.GuestMemoryMmap :=
  match V.writeSlice m p.2 p.1 with
  | (.ok _, m') => .ok m'
  | (.error e, _) => .error e

theorem write_eq_ok {m m' : V.GuestMemoryMmap} {p : Piece UInt8} :
    V.write m p = .ok m' ↔ (V.writeSlice m p.2 p.1).1 = .ok () ∧ (V.writeSlice m p.2 p.1).2 = m' := by
  rw [write]
  split
  case h_1 u m'' h => simp [h]
  case h_2 e m'' h => simp [h]

/-- A memory that the pieces were laid over. -/
structure Laid (m : V.GuestMemoryMmap) (ps : List (Piece UInt8)) (m' : V.GuestMemoryMmap) : Prop where
  size : V.size m' = V.size m
  byte : ∀ a, V.byte m' a = (overlay ps a).getD (V.byte m a)
  inside : ∀ p ∈ ps, p.2 ≠ [] → p.1 + p.2.length ≤ V.size m

theorem Laid.nil (m : V.GuestMemoryMmap) : Laid m [] m := ⟨rfl, fun _ => rfl, by simp⟩

theorem Laid.trans {m₁ m₂ m₃ : V.GuestMemoryMmap} {ps qs : List (Piece UInt8)} (h : Laid m₁ ps m₂)
    (h' : Laid m₂ qs m₃) : Laid m₁ (ps ++ qs) m₃ where
  size := h'.size.trans h.size
  byte := by
    intro a
    rw [h'.byte, h.byte, overlay_append]
    cases overlay qs a <;> rfl
  inside := by
    intro p hp hne
    rcases List.mem_append.mp hp with hp | hp
    · exact h.inside p hp hne
    · exact h.size ▸ h'.inside p hp hne

/-- Two pieces one behind the other are one piece. -/
theorem Laid.join {m m' : V.GuestMemoryMmap} {a : Nat} {xs ys : List UInt8}
    (h : Laid m [(a, xs), (a + xs.length, ys)] m') : Laid m [(a, xs ++ ys)] m' where
  size := h.size
  byte := by
    intro i
    rw [h.byte, overlay_cons, overlay_cons, overlay_cons, overlay_nil, Piece.look_append, Option.none_or,
      Option.none_or]
  inside := by
    intro p hp hne
    rw [List.mem_singleton.mp hp] at hne ⊢
    rw [List.length_append]
    by_cases hys : ys = []
    · subst hys
      have := h.inside (a, xs) (by simp) (by simpa using hne)
      simpa using this
    · have := h.inside (a + xs.length, ys) (by simp) hys
      simp only at this ⊢
      omega

theorem laid_write {m m' : V.GuestMemoryMmap} {p : Piece UInt8} (h : V.write m p = .ok m') :
    Laid m [p] m' := by
  obtain ⟨hok, rfl⟩ := write_eq_ok.mp h
  refine ⟨V.size_writeSlice _ _ _, fun a => ?_, fun q hq hne => ?_⟩
  · rw [V.byte_written hok, overlay_cons, overlay_nil, Option.none_or]
  · rw [List.mem_singleton.mp hq] at *
    by_contra hout
    obtain ⟨e, he⟩ := V.write_outside hne (Nat.lt_of_not_le hout)
    rw [he] at hok
    cases hok

/-- Pieces written one after another, up to the first that fails. -/
def writeAll (V : VmMemory) : V.GuestMemoryMmap → List (Piece UInt8) → Except String V.GuestMemoryMmap
  | m, [] => .ok m
  | m, p :: ps => do
      let m ← V.write m p
      V.writeAll m ps

theorem laid_writeAll {m m' : V.GuestMemoryMmap} {ps : List (Piece UInt8)} (h : V.writeAll m ps = .ok m') :
    Laid m ps m' := by
  induction ps generalizing m with
  | nil =>
      rw [← Except.ok.inj h]
      exact .nil m
  | cons p ps ih =>
      rw [writeAll] at h
      cases hw : V.write m p with
      | error e =>
          rw [hw] at h
          cases h
      | ok m₁ =>
          rw [hw] at h
          exact (laid_write hw).trans (ih h)

/-- What stands at an address is read back from there. -/
theorem readSlice_of_byte {m : V.GuestMemoryMmap} {a : Nat} {bs : List UInt8} (hne : bs ≠ [])
    (hin : a + bs.length ≤ V.size m) (h : ∀ i b, bs[i]? = some b → V.byte m (a + i) = b) :
    V.readSlice m a bs.length = .ok bs := by
  rw [V.read_inside (List.length_pos_iff.mpr hne) hin]
  refine congrArg _ (List.ext_getElem (by simp) fun i hi hi' => ?_)
  simpa using h i bs[i] (List.getElem?_eq_getElem hi')

end VmMemory

/-! ## A memory -/

/-- A number of bytes; those behind the end are not reachable. -/
structure Flat where
  size : Nat
  byte : Nat → UInt8
  size_lt : size < 2 ^ 64

namespace Flat

def readSlice (m : Flat) (a n : Nat) : Except String (List UInt8) :=
  if n = 0 ∧ a < m.size ∨ 0 < n ∧ a + n ≤ m.size then .ok ((List.range n).map fun i => m.byte (a + i))
  else .error "invalid guest address"

/-- The bytes that have a place are written, also when the others have none. -/
def writeSlice (m : Flat) (bs : List UInt8) (a : Nat) : Except String Unit × Flat :=
  (if bs = [] ∧ a < m.size ∨ bs ≠ [] ∧ a + bs.length ≤ m.size then .ok () else .error "invalid guest address",
    { m with byte := fun i => if i < m.size then (Piece.look (a, bs) i).getD (m.byte i) else m.byte i })

end Flat

def flat : VmMemory where
  GuestMemoryMmap := Flat
  size := Flat.size
  byte := Flat.byte
  fromRanges n := if h : 0 < n ∧ n < 2 ^ 64 then .ok ⟨n, fun _ => 0, h.2⟩ else .error "invalid size"
  readSlice := Flat.readSlice
  writeSlice := Flat.writeSlice
  size_lt := Flat.size_lt
  size_fromRanges := by
    intro n m h
    split at h
    · cases h
      rfl
    · cases h
  read_inside := fun hn hin => if_pos (.inr ⟨hn, hin⟩)
  read_outside := fun hn hout => ⟨_, if_neg (by omega)⟩
  read_empty := by
    intro m a bs h
    rw [Flat.readSlice] at h
    split at h
    · cases h
      rfl
    · cases h
  size_writeSlice := fun _ _ _ => rfl
  write_inside := fun hne hin => if_pos (.inr ⟨hne, hin⟩)
  write_outside := by
    intro m bs a hne hout
    refine ⟨_, if_neg ?_⟩
    rintro (⟨hnil, -⟩ | ⟨-, hin⟩)
    · exact hne hnil
    · exact Nat.not_le_of_lt hout hin
  byte_written := by
    intro m bs a h i
    show (if i < m.size then _ else _) = _
    split
    · rfl
    case isFalse hi =>
      rw [Piece.look_eq_none.mpr, Option.getD_none]
      by_contra hreach
      simp only [Flat.writeSlice] at h
      split at h
      case isTrue hok =>
        rcases hok with ⟨rfl, -⟩ | ⟨-, hin⟩
        · simp only [List.length_nil] at hreach
          omega
        · simp only at hreach
          omega
      case isFalse => cases h
  byte_beside := by
    intro m bs a i h
    show (if i < m.size then _ else _) = _
    rw [h, Option.getD_none, ite_self]

/-! ## `GuestRam` -/

structure MemRegion where
  base : BitVec 64
  len : BitVec 64
  kind : MemKind
  deriving DecidableEq, Repr

/-- The memory and the map of it that the guest is handed. -/
structure GuestRam (V : VmMemory) where
  inner : V.GuestMemoryMmap
  regions : List MemRegion

/-- One region of usable memory from address zero. -/
def GuestRam.new (V : VmMemory) (sizeBytes : BitVec 64) : Except String (GuestRam V) := do
  let inner ← V.fromRanges sizeBytes.toNat
  return ⟨inner, [⟨0, sizeBytes, .ram⟩]⟩

end Yuva.Vmm
