/-
# `Yuva.Lib.Ring` — a queue in a circular array

`Holds slots head len xs`: the `len` slots from `head` on, wrapping past the last one, are
the elements `xs` of a queue, oldest first.  Whatever else the array holds is left over from
elements that are gone.

    push    the element goes to the slot behind the last          (`Holds.push`)
    pop     the head's slot is read, the head moves on            (`Holds.front`, `Holds.pop`)
    shift   with no slot free, the head's slot takes the newest
            element and the head moves on                          (`Holds.shift`)
    newest  the same two of a ring that keeps the last elements    (`Holds.push_newest`,
                                                                    `Holds.shift_newest`)
    index   the `i`-th oldest is `i` slots behind the head         (`Holds.get`)

What a queue of bounded length is for is `accept`: it takes elements in at one end and gives
them out at the other, and takes none in when it is full.  Along every run of calls what was
given out and what is left are what was taken in, in order (`taken_eq`).

A queue of any length up to the capacity has such a place, the full and the empty one among
them: `len` tells them apart where `head` alone could not.

Nothing here mentions a particular queue.
-/
import Mathlib.Data.Nat.ModEq
import Yuva.Lib.Run

namespace Yuva.Ring

variable {T : Type} {N : Nat}

structure Holds (slots : Vector T N) (head len : Nat) (xs : List T) : Prop where
  count : len = xs.length
  fits : len ≤ N
  held : ∀ i, i < len → slots[(head + i) % N]? = xs[i]?

/-- A position of the ring is one slot of the array. -/
theorem slot_inj {h i j : Nat} (hi : i < N) (hj : j < N) (heq : (h + i) % N = (h + j) % N) : i = j := by
  have hmod : Nat.ModEq N i j := Nat.ModEq.add_left_cancel' h heq
  rwa [Nat.ModEq, Nat.mod_eq_of_lt hi, Nat.mod_eq_of_lt hj] at hmod

namespace Holds

variable {slots : Vector T N} {head len : Nat} {xs : List T}

theorem empty (slots : Vector T N) (head : Nat) : Holds slots head 0 [] where
  count := rfl
  fits := Nat.zero_le N
  held i hi := absurd hi (Nat.not_lt_zero i)

theorem length_le (h : Holds slots head len xs) : xs.length ≤ N := h.count ▸ h.fits

theorem push (h : Holds slots head len xs) (hroom : len < N) (v : T) :
    Holds (slots.setIfInBounds ((head + len) % N) v) head (len + 1) (xs ++ [v]) where
  count := by rw [List.length_append, List.length_singleton, h.count]
  fits := hroom
  held := by
    intro i hi
    have hslot : (head + len) % N < N := Nat.mod_lt _ (Nat.zero_lt_of_lt hroom)
    rw [Vector.getElem?_setIfInBounds]
    by_cases hlast : i = len
    · rw [hlast, if_pos rfl, if_pos hslot, h.count, List.getElem?_concat_length]
    · have hlt : i < len := by omega
      have hne : ¬ (head + len) % N = (head + i) % N := fun heq => hlast (slot_inj hroom (by omega) heq).symm
      rw [if_neg hne, h.held i hlt, List.getElem?_append_left (by rw [← h.count]; exact hlt)]

theorem get (h : Holds slots head len xs) {i : Nat} (hi : i < len) : slots[(head + i) % N]? = xs[i]? := h.held i hi

theorem front (h : Holds slots head len xs) (hhead : head < N) (hpos : 0 < len) : slots[head]? = xs.head? := by
  have h0 := h.held 0 hpos
  rwa [Nat.add_zero, Nat.mod_eq_of_lt hhead, ← List.head?_eq_getElem?] at h0

theorem pop (h : Holds slots head len xs) : Holds slots ((head + 1) % N) (len - 1) xs.tail where
  count := by rw [List.length_tail, h.count]
  fits := Nat.le_trans (Nat.sub_le _ _) h.fits
  held := by
    intro i hi
    rw [Nat.mod_add_mod, Nat.add_assoc, Nat.add_comm 1 i, h.held (i + 1) (by omega), List.getElem?_tail]

/-- A full ring drops its oldest element for the new one: the slot the head leaves is the
one behind the last. -/
theorem shift (h : Holds slots head N xs) (hhead : head < N) (v : T) :
    Holds (slots.setIfInBounds head v) ((head + 1) % N) N (xs.tail ++ [v]) := by
  have hpos : 0 < N := Nat.zero_lt_of_lt hhead
  have hslot : ((head + 1) % N + (N - 1)) % N = head := by
    rw [Nat.mod_add_mod, Nat.add_assoc, Nat.add_sub_cancel' hpos, Nat.add_mod_right, Nat.mod_eq_of_lt hhead]
  have hpush := h.pop.push (by omega) v
  rwa [hslot, Nat.sub_add_cancel hpos] at hpush

/-! Of a ring that drops its oldest element the queue is the last `N` elements pushed. -/

theorem push_newest (h : Holds slots head len (xs.drop (xs.length - N))) (hroom : len < N) (v : T) :
    Holds (slots.setIfInBounds ((head + len) % N) v) head (len + 1) ((xs ++ [v]).drop ((xs ++ [v]).length - N)) := by
  have hcount := h.count
  rw [List.length_drop] at hcount
  have hold : xs.length - N = 0 := by omega
  have hnew : (xs ++ [v]).length - N = 0 := by
    rw [List.length_append, List.length_singleton]
    omega
  have hpush := h.push hroom v
  rw [hold, List.drop_zero] at hpush
  rwa [hnew, List.drop_zero]

theorem shift_newest (h : Holds slots head len (xs.drop (xs.length - N))) (hfull : len = N) (hhead : head < N) (v : T) :
    Holds (slots.setIfInBounds head v) ((head + 1) % N) len ((xs ++ [v]).drop ((xs ++ [v]).length - N)) := by
  subst hfull
  have hcount := h.count
  rw [List.length_drop] at hcount
  have hnew : (xs ++ [v]).length - len = xs.length - len + 1 := by
    rw [List.length_append, List.length_singleton]
    omega
  have hshift := h.shift hhead v
  rw [List.tail_drop] at hshift
  rwa [hnew, List.drop_append_of_le_length (by omega)]

end Holds

/-! ## The bounded queue -/

inductive Move (T : Type) where
  | push (v : T)
  | pop
  deriving DecidableEq

/-- Whether the element was taken in, or the element given out. -/
inductive Answer (T : Type) where
  | pushed (taken : Bool)
  | popped (v : Option T)
  deriving DecidableEq

def accept (cap : Nat) (xs : List T) : Move T → Answer T × List T
  | .push v => if xs.length < cap then (.pushed true, xs ++ [v]) else (.pushed false, xs)
  | .pop => (.popped xs.head?, xs.tail)

/-- The elements taken in, of calls and their answers. -/
def takenIn : List (Move T) → List (Answer T) → List T
  | .push v :: cs, .pushed true :: as => v :: takenIn cs as
  | _ :: cs, _ :: as => takenIn cs as
  | _, _ => []

def givenOut : List (Answer T) → List T
  | .popped (some v) :: as => v :: givenOut as
  | _ :: as => givenOut as
  | [] => []

/-- First in, first out. -/
theorem taken_eq (cap : Nat) (cs : List (Move T)) (xs : List T) :
    xs ++ takenIn cs (Run.answers (accept cap) xs cs).1 =
      givenOut (Run.answers (accept cap) xs cs).1 ++ (Run.answers (accept cap) xs cs).2 := by
  induction cs generalizing xs with
  | nil => simp [Run.answers, takenIn, givenOut]
  | cons c cs ih =>
      cases c with
      | push v =>
          by_cases hroom : xs.length < cap
          · have := ih (xs ++ [v])
            simpa [Run.answers, accept, hroom, takenIn, givenOut] using this
          · simpa [Run.answers, accept, hroom, takenIn, givenOut] using ih xs
      | pop =>
          cases xs with
          | nil => simpa [Run.answers, accept, takenIn, givenOut] using ih []
          | cons x xs => simpa [Run.answers, accept, takenIn, givenOut] using ih xs

end Yuva.Ring
