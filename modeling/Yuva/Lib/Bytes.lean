/-
# `Yuva.Lib.Bytes` — fixed-width integers in byte strings

Little- and big-endian fields of any width over `List UInt8`, with the two
round trips, and `slice`, the bytes a decoder reads at a fixed offset.  A record
laid out as a concatenation of fields is read back field by field with
`slice_skip` and `slice_here`.

Nothing here mentions a particular format.
-/
import Mathlib.Data.List.Basic
import Mathlib.Data.List.GetD
import Mathlib.Tactic.Ring

namespace Yuva.Bytes

/-- The `k` low bytes of `n`, least significant first. -/
def le : Nat → Nat → List UInt8
  | 0, _ => []
  | k + 1, n => UInt8.ofNat n :: le k (n / 256)

/-- The number a byte string denotes, least significant byte first. -/
def unle : List UInt8 → Nat
  | [] => 0
  | b :: bs => b.toNat + 256 * unle bs

@[simp] theorem length_le : ∀ k n : Nat, (le k n).length = k
  | 0, _ => rfl
  | k + 1, n => by rw [le, List.length_cons, length_le k]

theorem unle_le (k n : Nat) : unle (le k n) = n % 256 ^ k := by
  induction k generalizing n with
  | zero => rw [le, unle, Nat.pow_zero, Nat.mod_one]
  | succ k ih =>
      have hb : (UInt8.ofNat n).toNat = n % 256 := by simp
      rw [le, unle, ih, hb, Nat.pow_succ, Nat.mul_comm (256 ^ k), Nat.mod_mul]

theorem unle_lt (bs : List UInt8) : unle bs < 256 ^ bs.length := by
  induction bs with
  | nil => simp [unle]
  | cons b bs ih =>
      have hb := b.toNat_lt
      rw [unle, List.length_cons, Nat.pow_succ]
      omega

theorem le_unle (bs : List UInt8) : le bs.length (unle bs) = bs := by
  induction bs with
  | nil => rfl
  | cons b bs ih =>
      have hb := b.toNat_lt
      have hdiv : (b.toNat + 256 * unle bs) / 256 = unle bs := by omega
      have hmod : UInt8.ofNat (b.toNat + 256 * unle bs) = b := by
        apply UInt8.toNat_inj.mp
        simp only [UInt8.toNat_ofNat']
        omega
      rw [unle, List.length_cons, le, hdiv, hmod, ih]

/-- The same, most significant byte first. -/
def be (k n : Nat) : List UInt8 := (le k n).reverse

def unbe (bs : List UInt8) : Nat := unle bs.reverse

@[simp] theorem length_be (k n : Nat) : (be k n).length = k := by rw [be, List.length_reverse, length_le]

theorem unbe_be (k n : Nat) : unbe (be k n) = n % 256 ^ k := by
  rw [unbe, be, List.reverse_reverse, unle_le]

/-- The `n` bytes at offset `off`. -/
def slice (s : List UInt8) (off n : Nat) : List UInt8 := (s.drop off).take n

/-- A byte string of a fixed length. -/
abbrev Block (n : Nat) := { bytes : List UInt8 // bytes.length = n }

theorem slice_skip {a : List UInt8} (s : List UInt8) {off : Nat} (n : Nat) (h : a.length ≤ off) :
    slice (a ++ s) off n = slice s (off - a.length) n := by
  rw [slice, slice, List.drop_append, List.drop_eq_nil_of_le h, List.nil_append]

theorem slice_here (a s : List UInt8) {n : Nat} (h : a.length = n) : slice (a ++ s) 0 n = a := by
  rw [slice, ← h, List.drop_zero, List.take_left]

theorem slice_append {a : List UInt8} (s : List UInt8) {off n : Nat} (h : off + n ≤ a.length) :
    slice (a ++ s) off n = slice a off n := by
  rw [slice, slice, List.drop_append_of_le_length (by omega),
    List.take_append_of_le_length (by rw [List.length_drop]; omega)]

theorem length_slice {s : List UInt8} {off n : Nat} (h : off + n ≤ s.length) :
    (slice s off n).length = n := by
  rw [slice, List.length_take, List.length_drop]
  omega

/-- The `i`-th of a run of fields of equal width. -/
theorem slice_flatten {k : Nat} {fs : List (List UInt8)} (s : List UInt8) {i : Nat} {f : List UInt8} :
    (∀ g ∈ fs, g.length = k) → fs[i]? = some f → slice (fs.flatten ++ s) (k * i) k = f := by
  induction fs generalizing i with
  | nil => intro _ h; simp at h
  | cons g fs ih =>
      intro hk h
      have hg : g.length = k := hk g List.mem_cons_self
      rw [List.flatten_cons, List.append_assoc]
      cases i with
      | zero =>
          cases h
          exact slice_here _ _ hg
      | succ i =>
          have hoff : k * (i + 1) - g.length = k * i := by
            rw [hg, Nat.mul_succ]
            omega
          rw [slice_skip _ k (by rw [hg, Nat.mul_succ]; omega), hoff]
          exact ih (fun g' hg' => hk g' (List.mem_cons_of_mem _ hg')) h

/-- The `i`-th of a run of fields of any widths. -/
theorem slice_field {off n : Nat} {fs : List (List UInt8)} (s : List UInt8) {i : Nat}
    {f : List UInt8} : fs[i]? = some f → (fs.take i).flatten.length = off → f.length = n →
      slice (fs.flatten ++ s) off n = f := by
  induction fs generalizing off i with
  | nil => intro h _ _; simp at h
  | cons g fs ih =>
      intro h hoff hn
      subst hoff
      rw [List.flatten_cons, List.append_assoc]
      cases i with
      | zero =>
          cases h
          exact slice_here _ _ hn
      | succ i =>
          rw [List.take_succ_cons, List.flatten_cons, List.length_append,
            slice_skip _ _ (Nat.le_add_right _ _), Nat.add_sub_cancel_left]
          exact ih h rfl hn

/-- The field behind all others. -/
theorem slice_tail {a s : List UInt8} {off n : Nat} (hoff : a.length = off) (hn : s.length = n) :
    slice (a ++ s) off n = s := by
  rw [slice_skip s n (Nat.le_of_eq hoff), hoff, Nat.sub_self, slice, List.drop_zero,
    List.take_of_length_le (Nat.le_of_eq hn)]

/-- A field of one byte, read as a byte. -/
theorem getD_of_slice {s : List UInt8} {off : Nat} {b d : UInt8} (h : slice s off 1 = [b]) :
    s.getD off d = b := by
  have hget : s[off]? = (slice s off 1)[0]? := by
    simp [slice]
  rw [List.getD_eq_getElem?_getD, hget, h]
  rfl

theorem length_flatten_of_eq {k : Nat} {fs : List (List UInt8)} :
    (∀ g ∈ fs, g.length = k) → fs.flatten.length = k * fs.length := by
  induction fs with
  | nil => intro _; rfl
  | cons g fs ih =>
      intro h
      rw [List.flatten_cons, List.length_append, h g List.mem_cons_self,
        ih fun g' hg' => h g' (List.mem_cons_of_mem _ hg'), List.length_cons, Nat.mul_succ]
      omega

/-- A field copied byte by byte into an array of its own. -/
def fixed (s : List UInt8) (off n : Nat) : Block n :=
  ⟨(List.range n).map fun i => s.getD (off + i) 0, by rw [List.length_map, List.length_range]⟩

theorem fixed_val {s : List UInt8} {off n : Nat} (h : off + n ≤ s.length) :
    (fixed s off n).val = slice s off n := by
  refine List.ext_getElem? fun i => ?_
  by_cases hi : i < n
  · have hlt : off + i < s.length := by omega
    simp [fixed, slice, hi, hlt]
  · have hlen := length_slice h
    rw [List.getElem?_eq_none (by rw [(fixed s off n).property]; omega),
      List.getElem?_eq_none (by omega)]

theorem fixed_skip {a : List UInt8} (s : List UInt8) {off : Nat} (n : Nat) (h : a.length = off) :
    fixed (a ++ s) off n = fixed s 0 n := by
  refine Subtype.ext (List.map_congr_left fun i _ => ?_)
  rw [List.getD_append_right _ _ _ _ (by omega), h, Nat.add_sub_cancel_left, Nat.zero_add]

/-- Bytes past the end read as zeros. -/
theorem fixed_pad (s : List UInt8) (off n k : Nat) :
    fixed (s ++ List.replicate k 0) off n = fixed s off n := by
  refine Subtype.ext (List.map_congr_left fun i _ => ?_)
  by_cases hi : off + i < s.length
  · rw [List.getD_append _ _ _ _ hi]
  · rw [List.getD_append_right _ _ _ _ (Nat.le_of_not_lt hi),
      List.getD_eq_default _ _ (Nat.le_of_not_lt hi), List.getD_eq_getElem?_getD,
      List.getElem?_replicate]
    split <;> rfl

/-- An array of its own keeps its zeros where the bytes have ended. -/
theorem fixed_val_zeros (s : List UInt8) (off n : Nat) :
    (fixed s off n).val =
      slice s off (min n (s.length - off)) ++ List.replicate (n - min n (s.length - off)) 0 := by
  have hk : (slice s off (min n (s.length - off))).length = min n (s.length - off) := by
    simp only [slice, List.length_take, List.length_drop]
    omega
  refine List.ext_getElem? fun i => ?_
  by_cases hi : i < n
  · rw [fixed, List.getElem?_map, List.getElem?_range hi, Option.map_some]
    by_cases hin : i < min n (s.length - off)
    · rw [List.getElem?_append_left (by omega), slice, List.getElem?_take_of_lt hin, List.getElem?_drop,
        List.getElem?_eq_getElem (by omega), List.getD_eq_getElem _ _ (by omega)]
    · rw [List.getElem?_append_right (by omega), List.getElem?_replicate, hk, if_pos (by omega),
        List.getD_eq_default _ _ (by omega)]
  · rw [List.getElem?_eq_none (by rw [(fixed s off n).property]; omega),
      List.getElem?_eq_none (by rw [List.length_append, hk, List.length_replicate]; omega)]

theorem slice_slice {s : List UInt8} {a n b m : Nat} (h : b + m ≤ n) :
    slice (slice s a n) b m = slice s (a + b) m := by
  rw [slice, slice, slice, List.drop_take, List.drop_drop, List.take_take, Nat.min_eq_left (by omega)]

/-- A byte string is the concatenation of its fields of equal width. -/
theorem flatten_slices {k : Nat} : ∀ {n : Nat} {s : List UInt8}, s.length = n * k →
    ((List.range n).map fun i => slice s (i * k) k).flatten = s
  | 0, s, h => by
      rw [Nat.zero_mul, List.length_eq_zero_iff] at h
      rw [h]
      rfl
  | n + 1, s, h => by
      rw [Nat.succ_mul] at h
      have hfront : ∀ i ∈ List.range n, slice s (i * k) k = slice (s.take (n * k)) (i * k) k := by
        intro i hi
        have hle : i * k + k ≤ n * k := by
          rw [← Nat.succ_mul]
          exact Nat.mul_le_mul_right k (List.mem_range.mp hi)
        have hpre : (s.take (n * k)).length = n * k := by
          rw [List.length_take]
          omega
        have happ := slice_append (s.drop (n * k)) (Nat.le_trans hle (Nat.le_of_eq hpre.symm))
        rwa [List.take_append_drop] at happ
      have hlast : slice s (n * k) k = s.drop (n * k) := by
        rw [slice, List.take_of_length_le (by rw [List.length_drop]; omega)]
      rw [List.range_succ, List.map_append, List.flatten_append, List.map_congr_left hfront,
        flatten_slices (by rw [List.length_take]; omega), List.map_singleton, List.flatten_singleton,
        hlast, List.take_append_drop]

/-- A word of `w` bits read back from the bytes that hold it. -/
theorem ofNat_unle_le {w k : Nat} (hw : 256 ^ k = 2 ^ w) (x : BitVec w) :
    BitVec.ofNat w (unle (le k x.toNat)) = x := by
  rw [unle_le, hw, Nat.mod_eq_of_lt x.isLt, BitVec.ofNat_toNat, BitVec.setWidth_eq]

/-- The bytes read as a word hold it. -/
theorem le_ofNat_unle {w : Nat} {bs : List UInt8} (hw : 256 ^ bs.length = 2 ^ w) :
    le bs.length (BitVec.ofNat w (unle bs)).toNat = bs := by
  rw [BitVec.toNat_ofNat, Nat.mod_eq_of_lt (hw ▸ unle_lt bs), le_unle]

theorem le_toNat_inj {w k : Nat} (hw : 256 ^ k = 2 ^ w) {x y : BitVec w}
    (h : le k x.toNat = le k y.toNat) : x = y := by
  rw [← ofNat_unle_le hw x, h, ofNat_unle_le hw y]

/-- Neighbouring slices are one slice. -/
theorem slice_append_slice (s : List UInt8) (off n m : Nat) :
    slice s off n ++ slice s (off + n) m = slice s off (n + m) := by
  rw [slice, slice, slice, List.take_add, List.drop_drop]

/-- One byte, as a slice. -/
theorem slice_one {s : List UInt8} {off : Nat} (h : off < s.length) (d : UInt8) :
    slice s off 1 = [s.getD off d] := by
  rw [slice, List.drop_eq_getElem_cons h, List.take_succ_cons, List.take_zero, List.getD_eq_getElem _ _ h]

/-- A word read at an offset, written again. -/
theorem le_word_slice {buf : List UInt8} {w off k : Nat} (hw : 256 ^ k = 2 ^ w) (h : off + k ≤ buf.length) :
    le k (BitVec.ofNat w (unle (slice buf off k))).toNat = slice buf off k := by
  have hk := length_slice h
  have hpow : 256 ^ (slice buf off k).length = 2 ^ w := by rw [hk, hw]
  have hle := le_ofNat_unle hpow
  rwa [hk] at hle

/-- A number read at an offset, written again. -/
theorem le_unle_slice {buf : List UInt8} {off k n : Nat} (h : off + k ≤ buf.length)
    (hn : unle (slice buf off k) = n) : le k n = slice buf off k := by
  have hle := le_unle (slice buf off k)
  rwa [length_slice h, hn] at hle

/-- Fields of the same widths, and whatever stands behind them, are determined by the
bytes they make. -/
theorem fields_inj {fs gs : List (List UInt8)} {a b : List UInt8}
    (hw : fs.map List.length = gs.map List.length) (h : fs.flatten ++ a = gs.flatten ++ b) :
    fs = gs ∧ a = b := by
  have hlen : fs.flatten.length = gs.flatten.length := by
    rw [List.length_flatten, List.length_flatten, hw]
  obtain ⟨hflat, hrest⟩ := List.append_inj h hlen
  exact ⟨List.eq_iff_flatten_eq.mpr ⟨hflat, hw⟩, hrest⟩

/-- Consecutive fields of the given widths, from an offset on. -/
def cuts (s : List UInt8) : Nat → List Nat → List (List UInt8)
  | _, [] => []
  | off, w :: ws => slice s off w :: cuts s (off + w) ws

/-- The fields of a buffer make up the stretch they were cut from. -/
theorem flatten_cuts (s : List UInt8) (off : Nat) (ws : List Nat) :
    (cuts s off ws).flatten = slice s off ws.sum := by
  induction ws generalizing off with
  | nil => simp [cuts, slice]
  | cons w ws ih => rw [cuts, List.flatten_cons, ih, List.sum_cons, slice_append_slice]

theorem getElem?_cuts {ws : List Nat} {i w : Nat} (h : ws[i]? = some w) (s : List UInt8) (off : Nat) :
    (cuts s off ws)[i]? = some (slice s (off + (ws.take i).sum) w) := by
  induction ws generalizing i off with
  | nil => cases h
  | cons v ws ih =>
      cases i with
      | zero =>
          cases h
          rfl
      | succ i =>
          rw [cuts, List.getElem?_cons_succ, ih h, List.take_succ_cons, List.sum_cons, Nat.add_assoc]

theorem length_cuts {s : List UInt8} {off : Nat} {ws : List Nat} (h : off + ws.sum ≤ s.length) :
    (cuts s off ws).map List.length = ws := by
  induction ws generalizing off with
  | nil => rfl
  | cons w ws ih =>
      rw [List.sum_cons] at h
      rw [cuts, List.map_cons, length_slice (by omega), ih (by omega)]

/-- With one field replaced, the fields still make up the stretch if that field is the same. -/
theorem flatten_set_cuts_iff {s g : List UInt8} {ws : List Nat} {i w : Nat} (h : ws.sum ≤ s.length)
    (hi : ws[i]? = some w) (hg : g.length = w) :
    ((cuts s 0 ws).set i g).flatten = s.take ws.sum ↔ g = slice s (ws.take i).sum w := by
  have hcuts : (cuts s 0 ws)[i]? = some (slice s (ws.take i).sum w) := by
    rw [getElem?_cuts hi, Nat.zero_add]
  obtain ⟨hlt, hfield⟩ := List.getElem?_eq_some_iff.mp hcuts
  obtain ⟨hltw, hwidth⟩ := List.getElem?_eq_some_iff.mp hi
  have hlen := length_cuts (by omega : 0 + ws.sum ≤ s.length)
  have hwidths : ((cuts s 0 ws).set i g).map List.length = (cuts s 0 ws).map List.length := by
    rw [List.map_set, hlen, hg, ← hwidth, List.set_getElem_self]
  have htake : s.take ws.sum = (cuts s 0 ws).flatten := by
    rw [flatten_cuts, slice, List.drop_zero]
  rw [htake]
  constructor
  · intro heq
    have hlists := List.eq_iff_flatten_eq.mpr ⟨heq, hwidths⟩
    have hset : ((cuts s 0 ws).set i g)[i]? = some g := List.getElem?_set_self hlt
    rw [hlists, hcuts] at hset
    exact (Option.some.inj hset).symm
  · rintro rfl
    rw [← hfield, List.set_getElem_self]

/-- A cleared buffer. -/
def zeros (n : Nat) : Block n := ⟨List.replicate n 0, List.length_replicate⟩

/-- `bytes` at the front of a buffer and how many were written, or the buffer
untouched and zero when they do not fit. -/
def overwrite {n : Nat} (bytes : List UInt8) (out : Block n) : Nat × Block n :=
  if h : n < bytes.length then (0, out)
  else (bytes.length, ⟨bytes ++ out.val.drop bytes.length, by
    rw [List.length_append, List.length_drop, out.property]
    omega⟩)

/-- Bytes that fill the buffer exactly. -/
theorem overwrite_full {n : Nat} {bytes : List UInt8} (h : bytes.length = n) (out : Block n) :
    overwrite bytes out = (n, ⟨bytes, h⟩) := by
  rw [overwrite, dif_neg (by omega)]
  refine Prod.ext h (Subtype.ext ?_)
  show bytes ++ out.val.drop bytes.length = bytes
  rw [List.drop_of_length_le (by rw [out.property, h]), List.append_nil]

/-- Bytes that fit are there, and counted. -/
theorem overwrite_fits {n : Nat} {bytes : List UInt8} (h : bytes.length ≤ n) (out : Block n) :
    (overwrite bytes out).1 = bytes.length ∧
      (overwrite bytes out).2.val.take bytes.length = bytes := by
  rw [overwrite, dif_neg (by omega)]
  exact ⟨rfl, List.take_left⟩

/-- Bytes of a known length go to the front of every buffer with room for them. -/
theorem overwrite_writes_iff {bytes s : List UInt8} {len : Nat} (hlen : bytes.length = len) :
    (∀ {n : Nat} (out : Block n), len ≤ n →
      (overwrite bytes out).1 = len ∧ (overwrite bytes out).2.val.take len = s) ↔ bytes = s := by
  subst hlen
  constructor
  · intro h
    have hwrite := (h (zeros bytes.length) (le_refl _)).2
    rwa [(overwrite_fits (le_refl _) _).2] at hwrite
  · rintro rfl n out hn
    exact overwrite_fits hn out

end Yuva.Bytes
