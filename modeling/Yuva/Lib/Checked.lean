/-
# `Yuva.Lib.Checked` — reads and sums that can fail

A read past the end of a byte string is a panic; so is a sum of machine words that
does not fit, unless the caller asked for it to be checked, a difference below zero, a shift
by the width of the word or more and a division by zero.  A function that is
written with these operations returns `none` where it would panic, and
`cut_eq`, `byteAt_eq`, `word_eq` and the lemmas like them take the operations away where the
bounds hold.  A loop over a range of indices is a `foldlM`: no turn of it panics if each
keeps an invariant (`foldlM_range`), and a loop whose turns never panic is a `foldl`
(`foldlM_eq_foldl`).  A computation in `Except` stops at its first error; `bind_eq_ok` peels
one that did not.

Nothing here mentions a particular format.
-/
import Yuva.Lib.Bytes

namespace Yuva.Checked

open Yuva.Bytes

/-- `&s[off..off + n]`. -/
def cut (s : List UInt8) (off n : Nat) : Option (List UInt8) :=
  if off + n ≤ s.length then some (slice s off n) else none

/-- The same bytes as an array of their number. -/
def blockAt (s : List UInt8) (off n : Nat) : Option (Block n) :=
  if h : off + n ≤ s.length then some ⟨slice s off n, length_slice h⟩ else none

/-- `s[i]`. -/
def byteAt (s : List UInt8) (i : Nat) : Option UInt8 := s[i]?

/-- A number as a machine word of 64 bits. -/
def word (n : Nat) : Option Nat := if n < 2 ^ 64 then some n else none

/-- A number as a machine word of 32 bits. -/
def word32 (n : Nat) : Option Nat := if n < 2 ^ 32 then some n else none

def subWord (a b : Nat) : Option Nat := if b ≤ a then some (a - b) else none

def divWord (a b : Nat) : Option Nat := if b = 0 then none else some (a / b)

def modWord (a b : Nat) : Option Nat := if b = 0 then none else some (a % b)

/-- `a << k` on 32 bits: what is shifted out is lost, a shift by 32 or more is a panic. -/
def shl32 (a k : Nat) : Option Nat := if k < 32 then some ((a <<< k) % 2 ^ 32) else none

/-- The same on 64 bits. -/
def shl64 (a k : Nat) : Option Nat := if k < 64 then some ((a <<< k) % 2 ^ 64) else none

def shr32 (a k : Nat) : Option Nat := if k < 32 then some (a >>> k) else none

/-- A number as a signed machine word. -/
def signed (w : Nat) (z : Int) : Option Int := if -2 ^ (w - 1) ≤ z ∧ z < 2 ^ (w - 1) then some z else none

/-- Signed division rounds to zero; the least word by -1 does not fit. -/
def divSigned (w : Nat) (a b : Int) : Option Int := if b = 0 then none else signed w (a.tdiv b)

@[simp] theorem some_bind {α β : Type} (a : α) (f : α → Option β) : (some a >>= f) = f a := rfl

theorem cut_eq {s : List UInt8} {off n : Nat} (h : off + n ≤ s.length) : cut s off n = some (slice s off n) :=
  if_pos h

theorem blockAt_eq {s : List UInt8} {off n : Nat} (h : off + n ≤ s.length) :
    blockAt s off n = some (fixed s off n) := by
  rw [blockAt, dif_pos h]
  exact congrArg some (Subtype.ext (fixed_val h).symm)

theorem getElem?_of_lt {α : Type} {xs : List α} {i : Nat} (h : i < xs.length) (d : α) :
    xs[i]? = some (xs.getD i d) := by
  rw [List.getElem?_eq_getElem h, List.getD_eq_getElem _ _ h]

theorem byteAt_eq {s : List UInt8} {i : Nat} (h : i < s.length) : byteAt s i = some (s.getD i 0) :=
  getElem?_of_lt h 0

theorem word_eq {n : Nat} (h : n < 2 ^ 64) : word n = some n := if_pos h

theorem word32_eq {n : Nat} (h : n < 2 ^ 32) : word32 n = some n := if_pos h

theorem subWord_eq {a b : Nat} (h : b ≤ a) : subWord a b = some (a - b) := if_pos h

theorem divWord_eq {a b : Nat} (h : 0 < b) : divWord a b = some (a / b) := if_neg (Nat.ne_of_gt h)

theorem modWord_eq {a b : Nat} (h : 0 < b) : modWord a b = some (a % b) := if_neg (Nat.ne_of_gt h)

theorem shl32_eq {a k : Nat} (h : k < 32) : shl32 a k = some ((a <<< k) % 2 ^ 32) := if_pos h

theorem shl64_one {k : Nat} (h : k < 64) : shl64 1 k = some (2 ^ k) := by
  rw [shl64, if_pos h, Nat.one_shiftLeft, Nat.mod_eq_of_lt (Nat.pow_lt_pow_right (by decide) h)]

theorem signed_eq {w : Nat} {z : Int} (hlo : -2 ^ (w - 1) ≤ z) (hhi : z < 2 ^ (w - 1)) : signed w z = some z :=
  if_pos ⟨hlo, hhi⟩

theorem divSigned_eq {w : Nat} {a b : Int} (ha : 0 ≤ a) (hfits : a < 2 ^ (w - 1)) (hb : 0 < b) :
    divSigned w a b = some (a / b) := by
  have hle : a / b ≤ a := Int.ediv_le_self b ha
  have hpos : 0 ≤ a / b := Int.ediv_nonneg ha (Int.le_of_lt hb)
  rw [divSigned, if_neg (Int.ne_of_gt hb), Int.tdiv_eq_ediv_of_nonneg ha]
  exact signed_eq (by omega) (by omega)

theorem shr32_eq {a k : Nat} (h : k < 32) : shr32 a k = some (a >>> k) := if_pos h

/-- `1 << k`. -/
theorem shl32_one {k : Nat} (h : k < 32) : shl32 1 k = some (2 ^ k) := by
  rw [shl32_eq h, Nat.one_shiftLeft, Nat.mod_eq_of_lt (Nat.pow_lt_pow_right (by decide) h)]

section

variable {σ α : Type}

theorem foldlM_eq_foldl {body : σ → α → Option σ} {step : σ → α → σ} {as : List α} {s : σ} :
    (∀ a ∈ as, ∀ s, body s a = some (step s a)) → as.foldlM body s = some (as.foldl step s) := by
  induction as generalizing s with
  | nil => exact fun _ => rfl
  | cons a as ih =>
      intro h
      rw [List.foldlM_cons, h a List.mem_cons_self, List.foldl_cons]
      exact ih fun b hb => h b (List.mem_cons_of_mem a hb)

/-- A loop over the indices below `n` each turn of which keeps an invariant. -/
theorem foldlM_range {I : Nat → σ → Prop} {body : σ → Nat → Option σ} {n : Nat} {s : σ} (h : I 0 s)
    (hstep : ∀ i < n, ∀ s, I i s → ∃ s', body s i = some s' ∧ I (i + 1) s') :
    ∃ s', (List.range n).foldlM body s = some s' ∧ I n s' := by
  induction n with
  | zero => exact ⟨s, rfl, h⟩
  | succ n ih =>
      obtain ⟨s₁, hrun, hI⟩ := ih fun i hi => hstep i (by omega)
      obtain ⟨s₂, hturn, hnext⟩ := hstep n (by omega) s₁ hI
      refine ⟨s₂, ?_, hnext⟩
      rw [List.range_succ, List.foldlM_append, hrun]
      show List.foldlM body s₁ [n] = some s₂
      rw [List.foldlM_cons, hturn]
      rfl

end

theorem bind_eq_ok {ε α β : Type} {x : Except ε α} {f : α → Except ε β} {b : β} :
    x >>= f = .ok b ↔ ∃ a, x = .ok a ∧ f a = .ok b := by
  cases x with
  | error e => simp [bind, Except.bind]
  | ok a => simp [bind, Except.bind]

theorem ok_of_mapError {ε ε' α : Type} {x : Except ε α} {f : ε → ε'} {a : α} (h : x.mapError f = .ok a) :
    x = .ok a := by
  cases x with
  | error e => cases h
  | ok b => exact congrArg _ (Except.ok.inj h)

theorem mapError_ok_iff {ε ε' α : Type} {x : Except ε α} {f : ε → ε'} {a : α} :
    x.mapError f = .ok a ↔ x = .ok a := by
  refine ⟨ok_of_mapError, ?_⟩
  rintro rfl
  rfl

end Yuva.Checked
