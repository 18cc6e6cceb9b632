/-
# `Yuva.Vmm.Bus` — the device bus

The bus of `tb-vmm/src/device.rs`: a map from base addresses to devices, in the order of the
bases.  A new range is checked against its two neighbours only, and an access goes to the last
device that begins at or before its address.  `Desk` keeps beside the bus the ranges that were
accepted.  `registry` says what a run of registrations leaves, in terms of the ranges alone:

    a range is refused exactly when it is empty or shares an address with an accepted one;
    an address belongs to the one accepted range that covers it, or to nobody;
    an access is its owner's, at the offset into the range, or reads all ones and writes nothing.

The end of a range is computed in 64 bits, so this is about ranges that end below 2⁶⁴.
-/
import Yuva.Lib.Run
import Yuva.Lib.Span
import Mathlib.Data.Nat.Order.Lemmas
import Mathlib.Tactic.Ring

namespace Yuva.Vmm

open Yuva.Run Yuva.Span

/-- A device's part of the state of the machine: what it answers to a read of `n` bytes, and
what a write leaves. -/
structure BusDevice (σ : Type) where
  read : σ → BitVec 64 → Nat → List UInt8 × σ
  write : σ → BitVec 64 → List UInt8 → σ

/-- The addresses from `base` on, `len` of them, and the device that answers there. -/
structure Entry (δ : Type) where
  base : BitVec 64
  len : BitVec 64
  device : δ
  deriving DecidableEq, Repr

inductive BusError where
  | zeroLength
  | overlap (base len : BitVec 64)
  deriving DecidableEq, Repr

namespace Entry

variable {δ : Type}

def lo (e : Entry δ) : Nat := e.base.toNat

def hi (e : Entry δ) : Nat := e.base.toNat + e.len.toNat

/-- The range ends below 2⁶⁴. -/
def Fits (e : Entry δ) : Prop := e.hi < 2 ^ 64

instance (e : Entry δ) : Decidable e.Fits := inferInstanceAs (Decidable (_ < _))

def Covers (e : Entry δ) (addr : BitVec 64) : Prop := e.lo ≤ addr.toNat ∧ addr.toNat < e.hi

instance (e : Entry δ) (addr : BitVec 64) : Decidable (e.Covers addr) := inferInstanceAs (Decidable (_ ∧ _))

def Overlaps (d e : Entry δ) : Prop := ∃ addr, d.Covers addr ∧ e.Covers addr

end Entry

/-- The map's entries, in its order. -/
structure Bus (δ : Type) where
  entries : List (Entry δ)
  sorted : Sorted Entry.lo entries

namespace Bus

variable {δ : Type}

def new : Bus δ := ⟨[], .nil⟩

/-- The sum of base and length wraps in the first comparison and stops at 2⁶⁴ − 1 in the second. -/
def register (b : Bus δ) (e : Entry δ) : Except BusError (Bus δ) :=
  if e.len = 0#64 then .error .zeroLength
  else if (atOrBefore Entry.lo b.entries e.lo).any (fun p => e.base < p.base + p.len) then
    .error (.overlap e.base e.len)
  else if (atOrAfter Entry.lo b.entries e.lo).any (fun q => q.lo < min e.hi (2 ^ 64 - 1)) then
    .error (.overlap e.base e.len)
  else .ok ⟨insert Entry.lo e b.entries, sorted_insert b.sorted⟩

def lookup (b : Bus δ) (addr : BitVec 64) : Option (BitVec 64 × δ) :=
  match atOrBefore Entry.lo b.entries addr.toNat with
  | none => none
  | some e => if addr < e.base + e.len then some (e.base, e.device) else none

variable {σ : Type} (devices : δ → BusDevice σ)

/-- An address nobody claims reads as all ones. -/
def read (b : Bus δ) (s : σ) (addr : BitVec 64) (n : Nat) : List UInt8 × σ :=
  match b.lookup addr with
  | some (base, d) => (devices d).read s (addr - base) n
  | none => (List.replicate n 0xFF, s)

/-- A write to an address nobody claims is dropped. -/
def write (b : Bus δ) (s : σ) (addr : BitVec 64) (data : List UInt8) : σ :=
  match b.lookup addr with
  | some (base, d) => (devices d).write s (addr - base) data
  | none => s

/-- What the bus rests on: its ranges hold some address, end below 2⁶⁴ and share none. -/
structure Tidy (b : Bus δ) : Prop where
  nonempty : ∀ e ∈ b.entries, e.lo < e.hi
  fits : ∀ e ∈ b.entries, e.Fits
  apart : ∀ d ∈ b.entries, ∀ e ∈ b.entries, d ≠ e → Apart Entry.lo Entry.hi d e

theorem tidy_new : Tidy (new : Bus δ) := ⟨nofun, nofun, nofun⟩

end Bus

variable {δ : Type} {b : Bus δ} {e : Entry δ}

namespace Entry

theorem lo_lt_hi_iff : e.lo < e.hi ↔ e.len ≠ 0#64 := by
  rw [lo, hi, ne_eq, ← BitVec.toNat_inj]
  simp
  omega

/-- The end as the code computes it. -/
theorem toNat_end (h : e.Fits) : (e.base + e.len).toNat = e.hi := by
  rw [BitVec.toNat_add]
  exact Nat.mod_eq_of_lt h

/-- The offset into a range does not wrap. -/
theorem Covers.toNat_offset {addr : BitVec 64} (h : e.Covers addr) : (addr - e.base).toNat = addr.toNat - e.lo :=
  BitVec.toNat_sub_of_le h.1

theorem overlaps_iff {d e : Entry δ} (hd : d.lo < d.hi) (he : e.lo < e.hi) (hfits : d.Fits) :
    d.Overlaps e ↔ ¬ Apart lo hi d e := by
  rw [not_apart_iff hd he]
  constructor
  · rintro ⟨addr, hda, hea⟩
    exact ⟨addr.toNat, hda, hea⟩
  · rintro ⟨x, hdx, hex⟩
    have hx : (BitVec.ofNat 64 x).toNat = x := Nat.mod_eq_of_lt (hdx.2.trans hfits)
    exact ⟨.ofNat 64 x, by rw [Covers, hx]; exact hdx, by rw [Covers, hx]; exact hex⟩

end Entry

namespace Bus

/-! ## One registration -/

/-- The two comparisons find a range that is not apart from every other. -/
theorem register_ok_iff (h : b.Tidy) (hfits : e.Fits) :
    (∃ b', b.register e = .ok b') ↔ e.len ≠ 0#64 ∧ ∀ d ∈ b.entries, Apart Entry.lo Entry.hi d e := by
  by_cases hlen : e.len = 0#64
  · simp [register, hlen]
  have hclear := clear_iff b.sorted h.nonempty h.apart (Entry.lo_lt_hi_iff.mpr hlen)
  have hbefore : (atOrBefore Entry.lo b.entries e.lo).any (fun p => e.base < p.base + p.len) = false ↔
      ∀ p, atOrBefore Entry.lo b.entries e.lo = some p → p.hi ≤ e.lo := by
    cases hp : atOrBefore Entry.lo b.entries e.lo with
    | none => simp
    | some p =>
        have hlt : e.base < p.base + p.len ↔ e.lo < p.hi := by
          rw [BitVec.lt_def, Entry.toNat_end (h.fits p ((atOrBefore_iff b.sorted).mp hp).1), Entry.lo]
        simp [hlt]
  have hafter : (atOrAfter Entry.lo b.entries e.lo).any (fun q => q.lo < min e.hi (2 ^ 64 - 1)) = false ↔
      ∀ q, atOrAfter Entry.lo b.entries e.lo = some q → e.hi ≤ q.lo := by
    have hmin : min e.hi (2 ^ 64 - 1) = e.hi := min_eq_left (Nat.le_pred_of_lt hfits)
    rw [hmin]
    cases atOrAfter Entry.lo b.entries e.lo <;> simp
  rw [hclear, ← hbefore, ← hafter, register, if_neg hlen]
  cases (atOrBefore Entry.lo b.entries e.lo).any (fun p => e.base < p.base + p.len) <;>
    cases (atOrAfter Entry.lo b.entries e.lo).any (fun q => q.lo < min e.hi (2 ^ 64 - 1)) <;> simp [hlen]

/-- An accepted range is put in its place. -/
theorem entries_of_register {b' : Bus δ} (h : b.register e = .ok b') :
    e.len ≠ 0#64 ∧ b'.entries = insert Entry.lo e b.entries := by
  rw [register] at h
  split_ifs at h with h₁ h₂ h₃
  exact ⟨h₁, by cases h; rfl⟩

theorem mem_of_register {b' : Bus δ} (htidy : b.Tidy) (hfits : e.Fits) (h : b.register e = .ok b') {d : Entry δ} :
    d ∈ b'.entries ↔ d = e ∨ d ∈ b.entries := by
  obtain ⟨hlen, hapart⟩ := (register_ok_iff htidy hfits).mp ⟨b', h⟩
  rw [(entries_of_register h).2, mem_insert]
  refine or_congr_right ⟨And.left, fun hd => ⟨hd, fun hlo => ?_⟩⟩
  -- Two spans that begin at one point are not apart.
  have := htidy.nonempty d hd
  have := Entry.lo_lt_hi_iff.mpr hlen
  rcases hapart d hd with hle | hle <;> omega

theorem tidy_register {b' : Bus δ} (htidy : b.Tidy) (hfits : e.Fits) (h : b.register e = .ok b') : b'.Tidy := by
  obtain ⟨hlen, hapart⟩ := (register_ok_iff htidy hfits).mp ⟨b', h⟩
  have hmem := @mem_of_register _ _ _ _ htidy hfits h
  refine ⟨fun d hd => ?_, fun d hd => ?_, fun d hd d' hd' hne => ?_⟩
  · rcases hmem.mp hd with rfl | hd
    · exact Entry.lo_lt_hi_iff.mpr hlen
    · exact htidy.nonempty d hd
  · rcases hmem.mp hd with rfl | hd
    · exact hfits
    · exact htidy.fits d hd
  · rcases hmem.mp hd with rfl | hd <;> rcases hmem.mp hd' with rfl | hd'
    · exact absurd rfl hne
    · exact (hapart d' hd').symm
    · exact hapart d hd
    · exact htidy.apart d hd d' hd' hne

theorem register_zeroLength_iff : b.register e = .error .zeroLength ↔ e.len = 0#64 := by
  rw [register]
  split_ifs with h₁ h₂ h₃ <;> simp [h₁]

theorem register_overlap_iff (h : b.Tidy) (hfits : e.Fits) :
    b.register e = .error (.overlap e.base e.len) ↔ e.len ≠ 0#64 ∧ ∃ d ∈ b.entries, d.Overlaps e := by
  have hok := register_ok_iff h hfits
  have hsplit : b.register e = .error (.overlap e.base e.len) ↔ e.len ≠ 0#64 ∧ ¬ ∃ b', b.register e = .ok b' := by
    rw [register]
    split_ifs with h₁ h₂ h₃ <;> simp [h₁]
  rw [hsplit, hok]
  refine and_congr_right fun hlen => ?_
  have hover : ∀ d ∈ b.entries, d.Overlaps e ↔ ¬ Apart Entry.lo Entry.hi d e := fun d hd =>
    Entry.overlaps_iff (h.nonempty d hd) (Entry.lo_lt_hi_iff.mpr hlen) (h.fits d hd)
  constructor
  · intro hne
    by_contra hnone
    exact hne ⟨hlen, fun d hd => by_contra fun hap => hnone ⟨d, hd, (hover d hd).mpr hap⟩⟩
  · rintro ⟨d, hd, hde⟩ ⟨_, hall⟩
    exact (hover d hd).mp hde (hall d hd)

theorem lookup_iff (h : b.Tidy) {addr base : BitVec 64} {d : δ} :
    b.lookup addr = some (base, d) ↔ ∃ e ∈ b.entries, e.base = base ∧ e.device = d ∧ e.Covers addr := by
  have howner := @owner_iff _ _ _ _ _ _ b.sorted h.nonempty h.apart addr.toNat
  rw [lookup]
  constructor
  · intro hlook
    cases he : atOrBefore Entry.lo b.entries addr.toNat with
    | none => rw [he] at hlook; cases hlook
    | some e =>
        rw [he] at hlook
        have hmem := ((atOrBefore_iff b.sorted).mp he).1
        dsimp only at hlook
        split_ifs at hlook with hlt
        rw [BitVec.lt_def, Entry.toNat_end (h.fits e hmem)] at hlt
        obtain ⟨rfl, rfl⟩ : e.base = base ∧ e.device = d := by simpa using hlook
        exact ⟨e, hmem, rfl, rfl, (howner.mp ⟨he, hlt⟩).2⟩
  · rintro ⟨e, hmem, rfl, rfl, hcov⟩
    obtain ⟨he, hlt⟩ := howner.mpr ⟨hmem, hcov⟩
    rw [he]
    exact if_pos (by rwa [BitVec.lt_def, Entry.toNat_end (h.fits e hmem)])

variable {σ : Type} {devices : δ → BusDevice σ} {addr : BitVec 64}

theorem lookup_none (h : b.Tidy) (hno : ∀ e ∈ b.entries, ¬ e.Covers addr) : b.lookup addr = none := by
  cases hlook : b.lookup addr with
  | none => rfl
  | some p =>
      obtain ⟨base, d⟩ := p
      obtain ⟨e, hmem, -, -, hcov⟩ := (lookup_iff h).mp hlook
      exact absurd hcov (hno e hmem)

/-- An access to a range is its device's. -/
theorem access_of_covers (h : b.Tidy) (hmem : e ∈ b.entries) (hcov : e.Covers addr) (s : σ) :
    (∀ n, b.read devices s addr n = (devices e.device).read s (addr - e.base) n) ∧
      ∀ data, b.write devices s addr data = (devices e.device).write s (addr - e.base) data := by
  have hlook : b.lookup addr = some (e.base, e.device) := (lookup_iff h).mpr ⟨e, hmem, rfl, rfl, hcov⟩
  exact ⟨fun n => by rw [read, hlook], fun data => by rw [write, hlook]⟩

/-- An access to no range is nobody's. -/
theorem access_of_none (h : b.Tidy) (hno : ∀ e ∈ b.entries, ¬ e.Covers addr) (s : σ) :
    (∀ n, b.read devices s addr n = (List.replicate n 0xFF, s)) ∧ ∀ data, b.write devices s addr data = s := by
  have hlook := lookup_none h hno
  exact ⟨fun n => by rw [read, hlook], fun data => by rw [write, hlook]⟩

end Bus

/-! ## Runs of registrations -/

/-- A bus, and the ranges it accepted. -/
structure Desk (δ : Type) where
  bus : Bus δ
  granted : List (Entry δ)

namespace Desk

def new : Desk δ := ⟨.new, []⟩

def register (k : Desk δ) (e : Entry δ) : Desk δ :=
  match k.bus.register e with
  | .ok bus => ⟨bus, e :: k.granted⟩
  | .error _ => k

/-- The bus holds the accepted ranges. -/
structure Kept (k : Desk δ) : Prop where
  tidy : k.bus.Tidy
  same : ∀ e, e ∈ k.bus.entries ↔ e ∈ k.granted

theorem kept_register {k : Desk δ} (h : k.Kept) {e : Entry δ} (hfits : e.Fits) : (k.register e).Kept := by
  rw [register]
  cases hr : k.bus.register e with
  | error err => exact h
  | ok bus =>
      refine ⟨Bus.tidy_register h.tidy hfits hr, fun d => ?_⟩
      show d ∈ bus.entries ↔ d ∈ e :: k.granted
      rw [Bus.mem_of_register h.tidy hfits hr, h.same, List.mem_cons]

theorem kept_run (es : List (Entry δ)) (hfits : ∀ e ∈ es, e.Fits) {k : Desk δ} (h : k.Kept) :
    (exec register k es).Kept := by
  induction es generalizing k with
  | nil => exact h
  | cons e es ih =>
      exact ih (fun d hd => hfits d (List.mem_cons_of_mem _ hd)) (kept_register h (hfits e List.mem_cons_self))

/-- After any registrations, in any order: what the next one is answered, who answers at an
address, and what a read and a write there do. -/
theorem registry {σ : Type} (devices : δ → BusDevice σ) (es : List (Entry δ)) (hfits : ∀ e ∈ es, e.Fits) :
    (∀ e : Entry δ, e.Fits →
      ((exec register new es).bus.register e = .error .zeroLength ↔ e.len = 0#64) ∧
      ((exec register new es).bus.register e = .error (.overlap e.base e.len) ↔
        e.len ≠ 0#64 ∧ ∃ d ∈ (exec register new es).granted, d.Overlaps e)) ∧
    (∀ addr base d, (exec register new es).bus.lookup addr = some (base, d) ↔
      ∃ e ∈ (exec register new es).granted, e.base = base ∧ e.device = d ∧ e.Covers addr) ∧
    (∀ addr, ∀ d ∈ (exec register new es).granted, ∀ e ∈ (exec register new es).granted,
      d.Covers addr → e.Covers addr → d = e) ∧
    (∀ (s : σ) addr, ∀ e ∈ (exec register new es).granted, e.Covers addr →
      (addr - e.base).toNat = addr.toNat - e.lo ∧
      (∀ n, (exec register new es).bus.read devices s addr n = (devices e.device).read s (addr - e.base) n) ∧
      ∀ data, (exec register new es).bus.write devices s addr data =
        (devices e.device).write s (addr - e.base) data) ∧
    ∀ (s : σ) addr, (∀ e ∈ (exec register new es).granted, ¬ e.Covers addr) →
      (∀ n, (exec register new es).bus.read devices s addr n = (List.replicate n 0xFF, s)) ∧
      ∀ data, (exec register new es).bus.write devices s addr data = s := by
  have hk : (exec register (new : Desk δ) es).Kept := kept_run es hfits ⟨Bus.tidy_new, fun _ => Iff.rfl⟩
  generalize exec register new es = k at hk
  refine ⟨fun e he => ?_, fun addr base d => ?_, fun addr d hd e he hda hea => ?_,
    fun s addr e he hcov => ⟨hcov.toNat_offset, Bus.access_of_covers hk.tidy ((hk.same e).mpr he) hcov s⟩,
    fun s addr hno => Bus.access_of_none hk.tidy (fun e he => hno e ((hk.same e).mp he)) s⟩
  · rw [Bus.register_overlap_iff hk.tidy he]
    simp only [hk.same]
    exact ⟨Bus.register_zeroLength_iff, trivial⟩
  · rw [Bus.lookup_iff hk.tidy]
    simp only [hk.same]
  · by_contra hne
    rcases hk.tidy.apart d ((hk.same d).mpr hd) e ((hk.same e).mpr he) hne with hle | hle
    · exact absurd (hda.2.trans_le (hle.trans hea.1)) (lt_irrefl _)
    · exact absurd (hea.2.trans_le (hle.trans hda.1)) (lt_irrefl _)

def twoPorts : List (Entry Bool) := [⟨0x3F8, 8, true⟩, ⟨0x510, 1, false⟩]

/-- A device that answers its offset and keeps what is written to it. -/
def probe (d : Bool) : BusDevice (List (Bool × BitVec 64 × List UInt8)) where
  read s offset n := (List.replicate n (UInt8.ofNat offset.toNat), s)
  write s offset data := s ++ [(d, offset, data)]

theorem registry_twoPorts :
    (exec register new twoPorts).bus.lookup 0x3FD = some (0x3F8, true) ∧
      (exec register new twoPorts).bus.register ⟨0x3FF, 4, true⟩ = .error (.overlap 0x3FF 4) ∧
      (exec register new twoPorts).bus.read probe [] 0x3FD 2 = ([5, 5], []) ∧
      (exec register new twoPorts).bus.write probe [] 0x510 [9] = [(false, 0, [9])] ∧
      (exec register new twoPorts).bus.read probe [] 0x400 2 = ([255, 255], []) ∧
      (exec register new twoPorts).bus.write probe [] 0x400 [9] = [] := by
  obtain ⟨hnext, hlookup, -, hserved, hfree⟩ := registry probe twoPorts (by decide)
  have hcom : (⟨0x3F8, 8, true⟩ : Entry Bool) ∈ (exec register new twoPorts).granted := by decide
  have hgap : ∀ e ∈ (exec register new twoPorts).granted, ¬ e.Covers 0x400 := by decide
  refine ⟨(hlookup 0x3FD 0x3F8 true).mpr ⟨_, hcom, rfl, rfl, by decide⟩,
    (hnext ⟨0x3FF, 4, true⟩ (by decide)).2.mpr ⟨by decide, _, hcom, 0x3FF, by decide, by decide⟩, ?_, ?_,
    (hfree [] 0x400 hgap).1 2, (hfree [] 0x400 hgap).2 [9]⟩
  · rw [(hserved [] 0x3FD _ hcom (by decide)).2.1 2]
    rfl
  · rw [(hserved [] 0x510 ⟨0x510, 1, false⟩ (by decide) (by decide)).2.2 [9]]
    rfl

end Desk

end Yuva.Vmm
