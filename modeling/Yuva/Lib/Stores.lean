/-
# `Yuva.Lib.Stores` — a buffer written byte by byte

An encoder stores fields at fixed offsets of a buffer that its caller owns.  A store past the
end of the buffer is a panic; functions written with these operations return `none` there.

    `out[i] = b`                                               `setAt`
    `while i < n { out[off + i] = 0; i += 1 }`                 `fillLoop`
    `while i < n { out[off + i] = src[start + i]; i += 1 }`    `copyFrom`, `copyLoop` from 0

`splice out off bytes` is what a run of stores leaves.  Stores of neighbouring fields, one
behind the other, splice in the fields together (`splice_splice`).  A loop that stores a byte
of each of several fields in every turn is one loop a field (`turns_seq`), since stores to
different places may change places (`storeByte_comm`).

Nothing here mentions a particular format.
-/
import Yuva.Lib.Checked

namespace Yuva.Stores

open Yuva.Bytes Yuva.Checked

/-- `bytes` in the place of as many bytes of a buffer. -/
def splice (out : List UInt8) (off : Nat) (bytes : List UInt8) : List UInt8 :=
  out.take off ++ bytes ++ out.drop (off + bytes.length)

def setAt (out : List UInt8) (i : Nat) (b : UInt8) : Option (List UInt8) :=
  if i < out.length then some (out.set i b) else none

/-- `src[start + i]` to `out[off + i]`, from an index on, as many times. -/
def copyFrom (src : List UInt8) (start off : Nat) : Nat → Nat → List UInt8 → Option (List UInt8)
  | _, 0, out => some out
  | i, n + 1, out => do
      let b ← byteAt src (start + i)
      let out ← setAt out (off + i) b
      copyFrom src start off (i + 1) n out

def copyLoop (src : List UInt8) (n : Nat) (out : List UInt8) (off : Nat) : Option (List UInt8) :=
  copyFrom src 0 off 0 n out

def fillFrom (off : Nat) : Nat → Nat → List UInt8 → Option (List UInt8)
  | _, 0, out => some out
  | i, n + 1, out => do
      let out ← setAt out (off + i) 0
      fillFrom off (i + 1) n out

def fillLoop (n : Nat) (out : List UInt8) (off : Nat) : Option (List UInt8) := fillFrom off 0 n out

variable {out src a b : List UInt8} {off : Nat}

@[simp] theorem splice_nil (out : List UInt8) (off : Nat) : splice out off [] = out := by
  rw [splice, List.append_nil, List.length_nil, Nat.add_zero, List.take_append_drop]

theorem length_splice (h : off + a.length ≤ out.length) : (splice out off a).length = out.length := by
  simp only [splice, List.length_append, List.length_take, List.length_drop]
  omega

/-- A field spliced in right behind another. -/
theorem splice_splice (h : off + a.length ≤ out.length) :
    splice (splice out off a) (off + a.length) b = splice out off (a ++ b) := by
  have hfront : (out.take off ++ a).length = off + a.length := by
    rw [List.length_append, List.length_take]
    omega
  have htake : (splice out off a).take (off + a.length) = out.take off ++ a := by
    rw [splice, List.take_left' hfront]
  have hdrop : (splice out off a).drop (off + a.length + b.length) = out.drop (off + (a ++ b).length) := by
    rw [splice, ← List.drop_drop, List.drop_left' hfront, List.drop_drop, List.length_append, Nat.add_assoc]
  rw [splice, htake, hdrop, splice, List.append_assoc (out.take off)]

/-- A field spliced in right before another. -/
theorem splice_before (h : off + (a ++ b).length ≤ out.length) :
    splice (splice out (off + a.length) b) off a = splice out off (a ++ b) := by
  rw [List.length_append] at h
  have hfront : (out.take (off + a.length)).length = off + a.length := by
    rw [List.length_take]
    omega
  have htake : (splice out (off + a.length) b).take off = out.take off := by
    rw [splice, List.append_assoc, List.take_append_of_le_length (by omega), List.take_take,
      Nat.min_eq_left (by omega)]
  have hdrop : (splice out (off + a.length) b).drop (off + a.length) = b ++ out.drop (off + (a ++ b).length) := by
    rw [splice, List.append_assoc, List.drop_left' hfront, List.length_append, Nat.add_assoc]
  rw [splice, htake, hdrop, splice]
  simp only [List.append_assoc]

theorem setAt_eq {x : UInt8} (h : off < out.length) : setAt out off x = some (splice out off [x]) := by
  rw [setAt, if_pos h, List.set_eq_take_append_cons_drop, if_pos h, splice, List.append_assoc]
  rfl

/-- A loop that stays inside both buffers copies the bytes in one piece. -/
theorem copyFrom_eq {start i n : Nat} (hsrc : start + i + n ≤ src.length) (hout : off + i + n ≤ out.length) :
    copyFrom src start off i n out = some (splice out (off + i) (slice src (start + i) n)) := by
  induction n generalizing i out with
  | zero => simp [copyFrom, slice]
  | succ n ih =>
      have hone : (splice out (off + i) [src.getD (start + i) 0]).length = out.length :=
        length_splice (by rw [List.length_singleton]; omega)
      have hnext : slice src (start + i) (n + 1) = [src.getD (start + i) 0] ++ slice src (start + i + 1) n := by
        rw [← slice_one (by omega), Nat.add_comm n 1, slice_append_slice]
      have hjoin : splice (splice out (off + i) [src.getD (start + i) 0]) (off + i + 1)
          (slice src (start + i + 1) n) =
            splice out (off + i) ([src.getD (start + i) 0] ++ slice src (start + i + 1) n) :=
        splice_splice (by rw [List.length_singleton]; omega)
      rw [copyFrom, byteAt_eq (by omega), some_bind, setAt_eq (by omega), some_bind,
        ih (by omega) (by rw [hone]; omega), hnext, ← hjoin]
      rfl

theorem copyLoop_eq {n : Nat} (hsrc : src.length = n) (hout : off + n ≤ out.length) :
    copyLoop src n out off = some (splice out off src) := by
  rw [copyLoop, copyFrom_eq (by omega) (by omega), Nat.add_zero, slice, List.drop_zero,
    List.take_of_length_le (by omega)]

theorem fillFrom_eq {i n : Nat} (hout : off + i + n ≤ out.length) :
    fillFrom off i n out = some (splice out (off + i) (List.replicate n 0)) := by
  induction n generalizing i out with
  | zero => simp [fillFrom]
  | succ n ih =>
      have hone : (splice out (off + i) [(0 : UInt8)]).length = out.length :=
        length_splice (by rw [List.length_singleton]; omega)
      have hjoin : splice (splice out (off + i) [0]) (off + i + 1) (List.replicate n 0) =
          splice out (off + i) ([0] ++ List.replicate n 0) := splice_splice (by rw [List.length_singleton]; omega)
      have hcons : List.replicate (n + 1) (0 : UInt8) = [0] ++ List.replicate n 0 := rfl
      rw [fillFrom, setAt_eq (by omega), some_bind, ih (by rw [hone]; omega), hcons, ← hjoin]
      rfl

theorem fillLoop_eq {n : Nat} (hout : off + n ≤ out.length) :
    fillLoop n out off = some (splice out off (List.replicate n 0)) :=
  fillFrom_eq (i := 0) hout

/-- A field spliced into the middle of another. -/
theorem splice_inside {k : Nat} (hout : off + a.length ≤ out.length) (hin : k + b.length ≤ a.length) :
    splice (splice out off a) (off + k) b = splice out off (splice a k b) := by
  have hfront : (out.take off).length = off := by
    rw [List.length_take]
    omega
  have htake : (splice out off a).take (off + k) = out.take off ++ a.take k := by
    rw [splice, List.append_assoc, List.take_append, hfront, List.take_of_length_le (by omega),
      Nat.add_sub_cancel_left, List.take_append_of_le_length (by omega)]
  have hdrop : (splice out off a).drop (off + k + b.length) = a.drop (k + b.length) ++ out.drop (off + a.length) := by
    rw [splice, List.append_assoc, Nat.add_assoc, List.drop_append, hfront, List.drop_of_length_le (by omega),
      Nat.add_sub_cancel_left, List.nil_append, List.drop_append_of_le_length hin]
  rw [splice, htake, hdrop, splice, length_splice hin, splice]
  simp only [List.append_assoc]

/-- A field as long as the buffer. -/
theorem splice_all (h : a.length = out.length) : splice out 0 a = a := by
  rw [splice, List.take_zero, List.nil_append, Nat.zero_add, List.drop_of_length_le (by omega), List.append_nil]

/-- A field spliced in over another of its length. -/
theorem splice_over (hout : off + a.length ≤ out.length) (hlen : b.length = a.length) :
    splice (splice out off a) off b = splice out off b := by
  have hjoin := splice_inside (k := 0) hout (by omega : 0 + b.length ≤ a.length)
  rwa [Nat.add_zero, splice_all hlen] at hjoin

theorem slice_splice {n : Nat} (hout : off + a.length ≤ out.length) (hn : a.length = n) :
    slice (splice out off a) off n = a := by
  have hfront : (out.take off).length = off := by
    rw [List.length_take]
    omega
  rw [splice, List.append_assoc, slice_skip _ _ (Nat.le_of_eq hfront), hfront, Nat.sub_self, slice_here _ _ hn]

/-! ## Fields from the front -/

/-- Bytes that are already there. -/
theorem splice_kept {kept : List UInt8} (h : slice out a.length kept.length = kept) :
    splice out 0 a = splice out 0 (a ++ kept) := by
  have hrest : out.drop a.length = kept ++ out.drop (a.length + kept.length) := by
    calc out.drop a.length
        = (out.drop a.length).take kept.length ++ (out.drop a.length).drop kept.length :=
          (List.take_append_drop _ _).symm
      _ = kept ++ out.drop (a.length + kept.length) := by rw [List.drop_drop, ← slice, h]
  rw [splice, splice, List.length_append, Nat.zero_add, Nat.zero_add, hrest, List.append_assoc, List.append_assoc,
    List.append_assoc]

theorem splice_keep {x : UInt8} (h : out[a.length]? = some x) : splice out 0 a = splice out 0 (a ++ [x]) := by
  obtain ⟨hlt, hget⟩ := List.getElem?_eq_some_iff.mp h
  exact splice_kept (by rw [List.length_singleton, slice_one hlt x, List.getD_eq_getElem _ _ hlt, hget])

/-- Zeros left where a zeroed buffer was not written. -/
theorem splice_zeros {k n : Nat} (h : a.length + n ≤ k) :
    splice (List.replicate k 0) 0 a = splice (List.replicate k 0) 0 (a ++ List.replicate n 0) := by
  refine splice_kept ?_
  rw [slice, List.drop_replicate, List.take_replicate, List.length_replicate, Nat.min_eq_left (by omega)]

theorem splice_front (h : a.length ≤ out.length) : splice (splice out 0 a) a.length b = splice out 0 (a ++ b) := by
  have hjoin : splice (splice out 0 a) (0 + a.length) b = splice out 0 (a ++ b) := splice_splice (by omega)
  rwa [Nat.zero_add] at hjoin

theorem setAt_front {x : UInt8} (off : Nat) (hoff : a.length = off) (hout : off < out.length) :
    setAt (splice out 0 a) off x = some (splice out 0 (a ++ [x])) := by
  rw [setAt_eq (by rw [length_splice (by omega)]; exact hout), ← hoff, splice_front (by omega)]

theorem copyLoop_front {n : Nat} (off : Nat) (hoff : a.length = off) (hsrc : src.length = n)
    (hout : off + n ≤ out.length) : copyLoop src n (splice out 0 a) off = some (splice out 0 (a ++ src)) := by
  rw [copyLoop_eq hsrc (by rw [length_splice (by omega)]; exact hout), ← hoff, splice_front (by omega)]

/-! ## Several fields in one loop -/

/-- `while i < n { body(i); i += 1 }`, from an index on, as many times. -/
def turns {σ : Type} (body : Nat → σ → Option σ) : Nat → Nat → σ → Option σ
  | _, 0, s => some s
  | i, n + 1, s => do
      let s ← body i s
      turns body (i + 1) n s

/-- `out[off + i] = src[i]`. -/
def storeByte (src : List UInt8) (off i : Nat) (out : List UInt8) : Option (List UInt8) := do
  let b ← byteAt src i
  setAt out (off + i) b

/-- Two steps that may change places. -/
def Swap {σ : Type} (f g : σ → Option σ) : Prop := ∀ s, (f s >>= g) = (g s >>= f)

theorem Swap.bind {σ : Type} {f g h : σ → Option σ} (hg : Swap f g) (hh : Swap f h) :
    Swap f fun s => g s >>= h := by
  intro s
  calc (f s >>= fun s => g s >>= h)
      = ((f s >>= g) >>= h) := (bind_assoc _ _ _).symm
    _ = ((g s >>= f) >>= h) := by rw [hg s]
    _ = (g s >>= fun s => f s >>= h) := bind_assoc _ _ _
    _ = (g s >>= fun s => h s >>= f) := congrArg _ (funext hh)
    _ = ((g s >>= h) >>= f) := (bind_assoc _ _ _).symm

/-- The second half of a turn may wait until all first halves are done. -/
theorem turns_seq {σ : Type} {f g : Nat → σ → Option σ} {i n : Nat} :
    (∀ j k, j < k → k < i + n → Swap (g j) (f k)) →
    ∀ s, turns (fun i s => f i s >>= g i) i n s = (turns f i n s >>= turns g i n) := by
  induction n generalizing i with
  | zero => exact fun _ _ => rfl
  | succ n ih =>
      intro h s
      have hlate : ∀ m k, i < k → k + m ≤ i + (n + 1) → Swap (g i) (turns f k m) := by
        intro m
        induction m with
        | zero => exact fun _ _ _ s => bind_pure (g i s)
        | succ m ihm =>
            intro k hk hm
            exact Swap.bind (h i k hk (by omega)) (ihm (k + 1) (by omega) (by omega))
      calc turns (fun i s => f i s >>= g i) i (n + 1) s
          = ((f i s >>= g i) >>= fun s => turns f (i + 1) n s >>= turns g (i + 1) n) :=
            congrArg _ (funext (ih fun j k hj hk => h j k hj (by omega)))
        _ = (f i s >>= fun s => (g i s >>= turns f (i + 1) n) >>= turns g (i + 1) n) := by
            simp only [bind_assoc]
        _ = (f i s >>= fun s => (turns f (i + 1) n s >>= g i) >>= turns g (i + 1) n) := by
            congr 1
            funext s
            rw [hlate n (i + 1) (by omega) (by omega) s]
        _ = (turns f i (n + 1) s >>= turns g i (n + 1)) := by
            simp only [turns, bind_assoc]

theorem storeByte_eq (off i : Nat) (out : List UInt8) :
    storeByte src off i out =
      if i < src.length ∧ off + i < out.length then some (out.set (off + i) (src.getD i 0)) else none := by
  by_cases hi : i < src.length
  · rw [storeByte, byteAt_eq hi, some_bind, setAt]
    simp only [hi, true_and]
  · rw [storeByte, byteAt, List.getElem?_eq_none (Nat.le_of_not_lt hi), if_neg fun h => hi h.1]
    rfl

theorem storeByte_comm {src' : List UInt8} {off' i j : Nat} (h : off + i ≠ off' + j) :
    Swap (storeByte src off i) (storeByte src' off' j) := by
  intro out
  by_cases hf : i < src.length ∧ off + i < out.length <;>
    by_cases hg : j < src'.length ∧ off' + j < out.length <;>
      simp [storeByte_eq, hf, hg, List.set_comm _ _ h]

theorem turns_storeByte (off i n : Nat) (out : List UInt8) :
    turns (storeByte src off) i n out = copyFrom src 0 off i n out := by
  induction n generalizing i out with
  | zero => rfl
  | succ n ih =>
      simp only [turns, copyFrom, storeByte, Nat.zero_add, bind_assoc, ih]

end Yuva.Stores
