/-
# `Yuva.Lib.Volatile` — a block device with a volatile write cache

A device serves reads, writes and flushes; any request may fail.  What it was
asked is kept in order in `issued`: every write, also one that reported failure,
and every flush that completed.

A crash keeps everything up to some point after the last completed flush and, of
the writes issued later, any subset, each write whole (`CrashImage`).  Two rules
carry the crash arguments:

    a block no request wrote keeps its contents          (`CrashImage.untouched`)
    a completed flush settles every write before it      (`CrashImage.of_flush`)

Nothing here mentions a particular on-disk format.
-/
import Mathlib.Data.List.Basic
import Mathlib.Logic.Function.Basic

namespace Yuva.Volatile

variable {S : Type*}

/-- What each block holds. -/
abbrev Disk (S : Type*) := Nat → S

inductive Req (S : Type*) where
  | write (n : Nat) (s : S)
  | flush

/-- The disk after every listed write. -/
def settle (d : Disk S) : List (Req S) → Disk S
  | [] => d
  | .write n s :: rs => settle (Function.update d n s) rs
  | .flush :: rs => settle d rs

theorem settle_append (d : Disk S) (rs rs' : List (Req S)) :
    settle d (rs ++ rs') = settle (settle d rs) rs' := by
  induction rs generalizing d with
  | nil => rfl
  | cons r rs ih =>
      cases r with
      | write n s => exact ih (Function.update d n s)
      | flush => exact ih d

theorem settle_untouched (d : Disk S) (rs : List (Req S)) {n : Nat}
    (h : ∀ s, Req.write n s ∉ rs) : settle d rs n = d n := by
  induction rs generalizing d with
  | nil => rfl
  | cons r rs ih =>
      have hrest : ∀ s, Req.write n s ∉ rs := fun s hs => h s (List.mem_cons_of_mem _ hs)
      cases r with
      | write m s =>
          have hne : n ≠ m := by
            rintro rfl
            exact h s List.mem_cons_self
          rw [settle, ih _ hrest, Function.update_of_ne hne]
      | flush => exact ih d hrest

theorem settle_cases (d : Disk S) (rs : List (Req S)) (n : Nat) :
    settle d rs n = d n ∨ ∃ s, Req.write n s ∈ rs ∧ settle d rs n = s := by
  induction rs generalizing d with
  | nil => exact .inl rfl
  | cons r rs ih =>
      cases r with
      | flush =>
          rcases ih d with h | ⟨s, hs, h⟩
          · exact .inl h
          · exact .inr ⟨s, List.mem_cons_of_mem _ hs, h⟩
      | write m t =>
          rcases ih (Function.update d m t) with h | ⟨s, hs, h⟩
          · by_cases hn : n = m
            · subst hn
              rw [Function.update_self] at h
              exact .inr ⟨t, List.mem_cons_self, h⟩
            · rw [Function.update_of_ne hn] at h
              exact .inl h
          · exact .inr ⟨s, List.mem_cons_of_mem _ hs, h⟩

/-- A block all of whose listed writes carry the same contents ends up with them. -/
theorem settle_written (d : Disk S) (rs : List (Req S)) {n : Nat} {s : S} :
    Req.write n s ∈ rs → (∀ s', Req.write n s' ∈ rs → s' = s) → settle d rs n = s := by
  induction rs generalizing d with
  | nil => intro hmem _; cases hmem
  | cons r rs ih =>
      intro hmem huniq
      have hrest : ∀ s', Req.write n s' ∈ rs → s' = s :=
        fun s' hs' => huniq s' (List.mem_cons_of_mem _ hs')
      cases r with
      | flush => exact ih d (by simpa using hmem) hrest
      | write m t =>
          rw [settle]
          by_cases hlater : ∃ s', Req.write n s' ∈ rs
          · obtain ⟨s', hs'⟩ := hlater
            exact ih _ (hrest s' hs' ▸ hs') hrest
          · have hhead : Req.write n s = Req.write m t :=
              (List.mem_cons.mp hmem).resolve_right fun h => hlater ⟨s, h⟩
            cases hhead
            rw [settle_untouched _ rs fun s' hs' => hlater ⟨s', hs'⟩, Function.update_self]

/-- A disk the device may hold after a crash that follows these requests. -/
def CrashImage (d : Disk S) (rs : List (Req S)) (img : Disk S) : Prop :=
  ∃ settled pending, rs = settled ++ pending ∧ Req.flush ∉ pending ∧
    ∀ n, img n = settle d settled n ∨ ∃ s, Req.write n s ∈ pending ∧ img n = s

namespace CrashImage

theorem untouched {d img : Disk S} {rs : List (Req S)} (h : CrashImage d rs img) {n : Nat}
    (hn : ∀ s, Req.write n s ∉ rs) : img n = d n := by
  obtain ⟨settled, pending, rfl, -, himg⟩ := h
  rcases himg n with he | ⟨s, hs, -⟩
  · rw [he]
    exact settle_untouched d settled fun s hs => hn s (List.mem_append_left _ hs)
  · exact absurd (List.mem_append_right _ hs) (hn s)

/-- After a crash a block holds what it held, or one of the writes to it. -/
theorem old_or_written {d img : Disk S} {rs : List (Req S)} (h : CrashImage d rs img) (n : Nat) :
    img n = d n ∨ ∃ s, Req.write n s ∈ rs ∧ img n = s := by
  obtain ⟨settled, pending, rfl, -, himg⟩ := h
  rcases himg n with he | ⟨s, hs, he⟩
  · rcases settle_cases d settled n with h | ⟨s, hs, h⟩
    · exact .inl (he.trans h)
    · exact .inr ⟨s, List.mem_append_left _ hs, he.trans h⟩
  · exact .inr ⟨s, List.mem_append_right _ hs, he⟩

theorem of_flush {d img : Disk S} {rs rs' : List (Req S)}
    (h : CrashImage d (rs ++ .flush :: rs') img) : CrashImage (settle d rs) rs' img := by
  obtain ⟨settled, pending, he, hp, himg⟩ := h
  -- the flush is not among the pending requests, so it was settled
  rcases List.append_eq_append_iff.mp he with ⟨mid, hs, hr⟩ | ⟨mid, hs, hr⟩
  · cases mid with
    | nil =>
        rw [List.nil_append] at hr
        rw [← hr] at hp
        exact absurd List.mem_cons_self hp
    | cons r mid =>
        rw [List.cons_append, List.cons.injEq] at hr
        obtain ⟨rfl, rfl⟩ := hr
        subst hs
        refine ⟨mid, pending, rfl, hp, ?_⟩
        rwa [settle_append] at himg
  · rw [hr] at hp
    exact absurd (List.mem_append_right _ List.mem_cons_self) hp

end CrashImage

/-! ## The device -/

/-- The disk as reads see it, the requests so far, their number, and whether
request number `n` reports success. -/
structure Dev (S : Type*) where
  disk : Disk S
  issued : List (Req S)
  served : Nat
  ok : Nat → Bool

namespace Dev

/-- A device that never fails. -/
def healthy (d : Disk S) : Dev S := ⟨d, [], 0, fun _ => true⟩

def read (d : Dev S) (n : Nat) : Option S × Dev S :=
  (if d.ok d.served then some (d.disk n) else none, { d with served := d.served + 1 })

/-- A write that reports failure may still persist: it is issued all the same. -/
def write (d : Dev S) (n : Nat) (s : S) : Bool × Dev S :=
  (d.ok d.served,
    { d with
      disk := if d.ok d.served then Function.update d.disk n s else d.disk
      issued := d.issued ++ [.write n s]
      served := d.served + 1 })

def flush (d : Dev S) : Bool × Dev S :=
  (d.ok d.served,
    { d with
      issued := if d.ok d.served then d.issued ++ [.flush] else d.issued
      served := d.served + 1 })

/-- From `d` to `d'` the device was issued `tr`. -/
structure Issued (d d' : Dev S) (tr : List (Req S)) : Prop where
  issued : d'.issued = d.issued ++ tr
  ok : d'.ok = d.ok

theorem Issued.refl (d : Dev S) : Issued d d [] := ⟨(List.append_nil _).symm, rfl⟩

theorem Issued.trans {d d' d'' : Dev S} {tr tr' : List (Req S)} (h : Issued d d' tr)
    (h' : Issued d' d'' tr') : Issued d d'' (tr ++ tr') :=
  ⟨by rw [h'.issued, h.issued, List.append_assoc], h'.ok.trans h.ok⟩

theorem write_cases (d : Dev S) (n : Nat) (s : S) : ∃ d', Issued d d' [.write n s] ∧
    ((d.write n s = (true, d') ∧ d'.disk = Function.update d.disk n s) ∨
      (d.write n s = (false, d') ∧ d'.disk = d.disk)) := by
  refine ⟨(d.write n s).2, ⟨rfl, rfl⟩, ?_⟩
  cases h : d.ok d.served with
  | true => exact .inl ⟨by simp [write, h], by simp [write, h]⟩
  | false => exact .inr ⟨by simp [write, h], by simp [write, h]⟩

theorem write_untouched (d : Dev S) {m n : Nat} (h : m ≠ n) (s : S) : (d.write n s).2.disk m = d.disk m := by
  show (if d.ok d.served then Function.update d.disk n s else d.disk) m = d.disk m
  split
  · rw [Function.update_of_ne h]
  · rfl

theorem flush_cases (d : Dev S) : ∃ d', d'.disk = d.disk ∧
    ((d.flush = (true, d') ∧ Issued d d' [.flush]) ∨
      (d.flush = (false, d') ∧ Issued d d' [])) := by
  refine ⟨d.flush.2, rfl, ?_⟩
  cases h : d.ok d.served with
  | true => exact .inl ⟨by simp [flush, h], by simp [flush, h], rfl⟩
  | false => exact .inr ⟨by simp [flush, h], by simp [flush, h], rfl⟩

end Dev

end Yuva.Volatile
