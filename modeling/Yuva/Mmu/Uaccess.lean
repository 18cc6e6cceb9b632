/-
# `Yuva.Mmu.Uaccess` — the copies to and from a user buffer

`tb-hal/src/arch/x86_64/uaccess.rs`: a software walk of four levels under an explicit root, and a
copy that goes page by page through the walked frames.  Physical memory is read and written
through its supervisor alias, byte by byte; an entry is eight bytes, little-endian.

The alias reaches up to `IDENTITY_LIMIT`.  The source checks that of a leaf's frame, and takes it
for granted of the tables; an entry beyond is no typed fault but an access with no defined
outcome, where the model stops (`Stop.wild`).

The kernel buffer is a list beside the memory: the source has the kernel heap and the frames
apart.
-/
import Yuva.Lib.Checked
import Yuva.Lib.Machine
import Yuva.Lib.Overlay
import Yuva.Mmu.Paging

namespace Yuva.Mmu

open Yuva.Bytes Yuva.Checked Yuva.Machine Yuva.Overlay

/-- A large page. -/
def PTE_PS : Nat := 128
def IDENTITY_LIMIT : Nat := 0x40000000
def PAGE_OFF_MASK : Nat := PAGE_SIZE - 1

inductive CopyFault where
  | notPresent | notUser | notWritable | notInPhysmap
  deriving DecidableEq

/-- How a copy stops short. -/
inductive Stop where
  | fault (f : CopyFault)
  | wild
  deriving DecidableEq

abbrev Ram := Nat → UInt8

@[irreducible] def entryAt (ram : Ram) (slot : Nat) : Nat := unle ((List.range 8).map fun k => ram (slot + k))

def readEntry (ram : Ram) (slot : Nat) : Except Stop Nat :=
  if slot + 8 ≤ IDENTITY_LIMIT then .ok (entryAt ram slot) else .error .wild

def classifyLeaf (flags : Nat) (write : Bool) : Except CopyFault Unit :=
  if flags &&& PTE_P = 0 then .error .notPresent
  else if flags &&& PTE_US = 0 then .error .notUser
  else if write ∧ flags &&& PTE_RW = 0 then .error .notWritable
  else .ok ()

/-- The chunks `(bufOffset, pageVa, inPage)` from `done` on; the address wraps. -/
def spanFrom (uva len done : Nat) : List (Nat × Nat × Nat) :=
  if _h : done < len then
    let cur := wrapU 64 (uva + done)
    let off := cur &&& PAGE_OFF_MASK
    let inPage := min (PAGE_SIZE - off) (len - done)
    (done, cur, inPage) :: spanFrom uva len (done + inPage)
  else []
termination_by len - done
decreasing_by
  have hoff : wrapU 64 (uva + done) &&& PAGE_OFF_MASK < PAGE_SIZE :=
    Nat.and_le_right.trans_lt (by decide)
  omega

def spanPages (uva len : Nat) : List (Nat × Nat × Nat) := spanFrom uva len 0

/-- One turn over an interior level: the table its entry points at. -/
def walkInterior (ram : Ram) (uva table shift : Nat) : Except Stop Nat := do
  let entry ← readEntry ram (table + 8 * levelIndex uva shift)
  if entry &&& PTE_P = 0 then .error (.fault .notPresent)
  else if entry &&& PTE_US = 0 then .error (.fault .notUser)
  else if entry &&& PTE_PS ≠ 0 then .error (.fault .notPresent)
  else .ok (entryAddr entry)

def INTERIOR : List Nat := [SHIFT_512G, SHIFT_1G, SHIFT_2M]

def walkUser (ram : Ram) (rootPa uva : Nat) (write : Bool) : Except Stop Nat := do
  let table ← INTERIOR.foldlM (walkInterior ram uva) (rootPa &&& ENTRY_ADDR_MASK)
  let leaf ← readEntry ram (table + 8 * levelIndex uva SHIFT_4K)
  (classifyLeaf leaf write).mapError .fault
  .ok (entryAddr leaf ||| (uva &&& PAGE_OFF_MASK))

def load (ram : Ram) (pa n : Nat) : List UInt8 := (List.range n).map fun k => ram (pa + k)

def store (ram : Ram) (pa : Nat) (bytes : List UInt8) : Ram := fun a => (Piece.look (pa, bytes) a).getD (ram a)

/-- The buffer with `bytes` at `start`. -/
def splice (kbuf : List UInt8) (start : Nat) (bytes : List UInt8) : List UInt8 :=
  kbuf.take start ++ bytes ++ kbuf.drop (start + bytes.length)

/-- One chunk, over the memory and the kernel buffer. -/
def copyChunk (rootPa : Nat) (toUser : Bool) (st : Ram × List UInt8) : Nat × Nat × Nat →
    Except Stop (Ram × List UInt8)
  | (start, pageVa, inPage) => do
      let pa ← walkUser st.1 rootPa pageVa toUser
      if pa ≥ IDENTITY_LIMIT ∨ pa + inPage > IDENTITY_LIMIT then .error (.fault .notInPhysmap)
      else if toUser then .ok (store st.1 pa (slice st.2 start inPage), st.2)
      else .ok (st.1, splice st.2 start (load st.1 pa inPage))

/-- The loop; what the chunks before a failing one have copied stays. -/
def copyChunks (rootPa : Nat) (toUser : Bool) : List (Nat × Nat × Nat) → Ram × List UInt8 →
    Except Stop Unit × Ram × List UInt8
  | [], st => (.ok (), st)
  | c :: cs, st =>
      match copyChunk rootPa toUser st c with
      | .error e => (.error e, st)
      | .ok st => copyChunks rootPa toUser cs st

def copySpan (rootPa uva : Nat) (toUser : Bool) (st : Ram × List UInt8) : Except Stop Unit × Ram × List UInt8 :=
  copyChunks rootPa toUser (spanPages uva st.2.length) st

/-- The result, and the kernel buffer after. -/
def copyFromUser (ram : Ram) (rootPa srcUva : Nat) (dst : List UInt8) : Except Stop Unit × List UInt8 :=
  let (r, _, dst) := copySpan rootPa srcUva false (ram, dst)
  (r, dst)

/-- The result, and the memory after. -/
def copyToUser (ram : Ram) (rootPa dstUva : Nat) (src : List UInt8) : Except Stop Unit × Ram :=
  let (r, ram, _) := copySpan rootPa dstUva true (ram, src)
  (r, ram)

end Yuva.Mmu
