/-
# `Yuva.Persist.Boots` — boots that crash while they write

A boot reads the region, accumulates its records and writes a slab; a crash leaves
any subset of the slab's sectors on the disk, each whole (`after`; `crashImage_iff`
says that these are the disks of `Yuva.Lib.Volatile` after a crash).

The slab of generation `g` goes to slot A for odd `g` and to slot B for even `g`.
Torn slabs keep their generation free: the next boot uses it again, over what the
torn one left.

    slot of `g`       the slab of generation `g`, whole
    slot of `g + 1`   an older slab, or parts of slabs of generation `g + 1`

A `Ledger` counts the slabs that came to stand whole and keeps the records of the
last; `Inv` ties it to the disk, and `Inv.reads` says that a boot reads the ledger's
records back, if the checksums reject what is not whole (`Rejects`).
-/
import Mathlib.Data.List.DropRight
import Yuva.Lib.Run
import Yuva.Persist.Corpus

namespace Yuva.Persist

open Yuva.Bytes Yuva.Prov Yuva.Volatile Yuva.Run
open Yuva.Store (Sector)
open Yuva.Hash (Bytes32)
open Yuva.Mem.Corpus (CORPUS_PERSIST_MAX_RECORDS)

/-! ## The two slots -/

/-- Slot B is `true`. -/
def slotBase : Bool → Nat
  | false => CORPUS_PERSIST_BASE
  | true => CORPUS_PERSIST_BASE + MAX_SECTORS

/-- The slot of a generation. -/
def side (gen : Nat) : Bool := gen % 2 == 0

theorem side_succ (gen : Nat) : side (gen + 1) = !side gen := by
  rcases Nat.mod_two_eq_zero_or_one gen with h | h <;> simp [side, Nat.add_mod, h]

theorem target_some (s : Bool) : target (some s) = slotBase (!s) := by cases s <;> rfl

theorem slotBase_disjoint {s : Bool} {i j : Nat} (hi : i < MAX_SECTORS) (hj : j < MAX_SECTORS) :
    slotBase s + i ≠ slotBase (!s) + j := by
  cases s <;> simp only [slotBase, Bool.not_true, Bool.not_false] <;> omega

/-- A slot as the decoder sees it. -/
def slotDecode (disk : Disk Sector) (s : Bool) : Option (DecodedHead × List UInt8) :=
  decode (slabAt disk (slotBase s)) BLOB_CAP

/-- The read-back of a region whose slot `s` has the newer slab. -/
theorem regionOf_newer {disk : Disk Sector} {s : Bool} {x : DecodedHead × List UInt8}
    (hx : slotDecode disk s = some x)
    (hother : ∀ y, slotDecode disk (!s) = some y → y.1.gen < x.1.gen) :
    regionOf disk =
      { winner := some s
        priorGen := x.1.gen
        survivor := (unpack x).map fun rows => (x.1.head, rows) } := by
  cases s with
  | false =>
      have hA : decode (slabAt disk CORPUS_PERSIST_BASE) BLOB_CAP = some x := hx
      cases hB : decode (slabAt disk (CORPUS_PERSIST_BASE + MAX_SECTORS)) BLOB_CAP with
      | none => simp [regionOf, readBack, hA, hB, recover, pickNewer]
      | some y =>
          have hlt := hother y hB
          have hno : ¬ x.1.gen < y.1.gen := BitVec.not_lt.mpr (BitVec.le_of_lt hlt)
          simp [regionOf, readBack, hA, hB, recover, pickNewer, hno]
  | true =>
      have hB : decode (slabAt disk (CORPUS_PERSIST_BASE + MAX_SECTORS)) BLOB_CAP = some x := hx
      cases hA : decode (slabAt disk CORPUS_PERSIST_BASE) BLOB_CAP with
      | none => simp [regionOf, readBack, hA, hB, recover, pickNewer]
      | some y => simp [regionOf, readBack, hA, hB, recover, pickNewer, hother y hA]

theorem regionOf_none {disk : Disk Sector} (h : ∀ s, slotDecode disk s = none) :
    regionOf disk = { winner := none, priorGen := 0, survivor := none } := by
  have hA : decode (slabAt disk CORPUS_PERSIST_BASE) BLOB_CAP = none := h false
  have hB : decode (slabAt disk (CORPUS_PERSIST_BASE + MAX_SECTORS)) BLOB_CAP = none := h true
  simp [regionOf, readBack, hA, hB, recover, pickNewer]

/-! ## One boot -/

/-- The records a boot curates, and which sectors of its slab reach the disk. -/
structure Boot where
  rows : List Row
  nonempty : rows ≠ []
  decodable : Decodable rows
  reached : Nat → Bool

/-- The disk when some sectors of a record at `base` have reached it. -/
def writeSome (disk : Disk Sector) (base : Nat) (r : HeadRecord) (reached : Nat → Bool) : Disk Sector :=
  fun x =>
    if base ≤ x ∧ x < base + sectorCount r ∧ reached (x - base) = true then recordSector r (x - base)
    else disk x

def after (disk : Disk Sector) (b : Boot) : Disk Sector :=
  writeSome disk (target (regionOf disk).winner) (nextSlab (regionOf disk) b.rows) b.reached

section writeSome

variable {disk : Disk Sector} {base : Nat} {r : HeadRecord} {reached : Nat → Bool}

theorem writeSome_reached {i : Nat} (hi : i < sectorCount r) (h : reached i = true) :
    writeSome disk base r reached (base + i) = recordSector r i := by
  have hoff : base + i - base = i := Nat.add_sub_cancel_left base i
  rw [writeSome, if_pos ⟨Nat.le_add_right _ _, Nat.add_lt_add_left hi base, by rw [hoff]; exact h⟩, hoff]

theorem writeSome_unreached {i : Nat} (h : reached i = false) :
    writeSome disk base r reached (base + i) = disk (base + i) := by
  refine if_neg ?_
  rintro ⟨-, -, hreached⟩
  rw [Nat.add_sub_cancel_left, h] at hreached
  cases hreached

/-- A sector of the target slot is the record's or what it was. -/
theorem writeSome_or (i : Nat) : writeSome disk base r reached (base + i) = recordSector r i ∨
    writeSome disk base r reached (base + i) = disk (base + i) := by
  have hoff : base + i - base = i := Nat.add_sub_cancel_left base i
  rw [writeSome]
  split
  · rw [hoff]
    exact .inl rfl
  · exact .inr rfl

/-- The other slot is left alone. -/
theorem writeSome_other {s : Bool} (hr : sectorCount r ≤ MAX_SECTORS) {i : Nat} (hi : i < MAX_SECTORS) :
    writeSome disk (slotBase (!s)) r reached (slotBase s + i) = disk (slotBase s + i) := by
  refine if_neg ?_
  rintro ⟨hle, hlt, -⟩
  refine slotBase_disjoint (s := s) (j := slotBase s + i - slotBase (!s)) hi (by omega) ?_
  omega

end writeSome

/-! ## The accumulated list -/

/-- The records of before and the new ones behind them, cut to the most recent. -/
theorem accumulate_eq (prior cur : List Row) :
    accumulate prior cur = (prior ++ cur).rtake CORPUS_PERSIST_MAX_RECORDS := by
  rw [accumulate, List.rtake]
  split
  · rfl
  · next hfits => rw [Nat.sub_eq_zero_of_le (Nat.le_of_not_lt hfits), List.drop_zero]

theorem length_accumulate (prior cur : List Row) :
    (accumulate prior cur).length ≤ CORPUS_PERSIST_MAX_RECORDS := by
  rw [accumulate_eq, List.rtake, List.length_drop]
  omega

theorem mem_of_accumulate {prior cur : List Row} {row : Row} (h : row ∈ accumulate prior cur) :
    row ∈ prior ∨ row ∈ cur := by
  rw [accumulate_eq, List.rtake] at h
  exact List.mem_append.mp (List.mem_of_mem_drop h)

theorem accumulate_ne_nil {prior cur : List Row} (h : cur ≠ []) : accumulate prior cur ≠ [] := by
  have hpos : 0 < cur.length := List.length_pos_iff.mpr h
  have hmax : 0 < CORPUS_PERSIST_MAX_RECORDS := by decide
  refine List.ne_nil_of_length_pos ?_
  rw [accumulate_eq, List.rtake, List.length_drop, List.length_append]
  omega

theorem decodable_accumulate {prior cur : List Row} (hprior : Decodable prior) (hcur : Decodable cur) :
    Decodable (accumulate prior cur) := fun row hrow =>
  (mem_of_accumulate hrow).elim (hprior row) (hcur row)

/-! ## What a run has stored -/

/-- How many slabs have come to stand whole, the records of the last of them, and the
lists that boots began to write since, the latest first. -/
structure Ledger where
  done : Nat
  list : List Row
  since : List (List Row)

namespace Ledger

def empty : Ledger := ⟨0, [], []⟩

/-- The slot that is written next. -/
def slot (L : Ledger) : Nat := slotBase (side (L.done + 1))

/-- The slab that a list makes there. -/
def next (L : Ledger) (rows : List Row) : HeadRecord := slab (BitVec.ofNat 64 (L.done + 1)) rows

/-- After a boot began to write the slab of `rows`, a slab stands whole in the slot or
none does.  It is the boot's own, or one begun since the last, of which torn boots
have between them put every sector on the disk. -/
def settle (L : Ledger) (disk : Disk Sector) (rows : List Row) : Ledger :=
  match (rows :: L.since).find? fun l => decide (Holds disk L.slot (L.next l)) with
  | some l => { done := L.done + 1, list := l, since := [] }
  | none => { done := L.done, list := L.list, since := rows :: L.since }

theorem settle_cases (L : Ledger) (disk : Disk Sector) (rows : List Row) :
    (∃ l ∈ rows :: L.since, Holds disk L.slot (L.next l) ∧
      L.settle disk rows = { done := L.done + 1, list := l, since := [] }) ∨
    (∀ l ∈ rows :: L.since, ¬ Holds disk L.slot (L.next l)) ∧
      L.settle disk rows = { done := L.done, list := L.list, since := rows :: L.since } := by
  rw [settle]
  cases hf : (rows :: L.since).find? fun l => decide (Holds disk L.slot (L.next l)) with
  | some l =>
      have hholds := List.find?_some hf
      exact .inl ⟨l, List.mem_of_find?_eq_some hf, of_decide_eq_true hholds, rfl⟩
  | none =>
      refine .inr ⟨fun l hl hholds => ?_, rfl⟩
      exact absurd (decide_eq_true hholds) (List.find?_eq_none.mp hf l hl)

theorem settle_of_holds {L : Ledger} {disk : Disk Sector} {rows : List Row}
    (h : Holds disk L.slot (L.next rows)) :
    L.settle disk rows = { done := L.done + 1, list := rows, since := [] } := by
  rw [settle, List.find?_cons_of_pos (p := fun l => decide (Holds disk L.slot (L.next l)))
    (decide_eq_true h)]

/-- What a boot is to read. -/
def readBack (L : Ledger) : ReadBack :=
  if L.done = 0 then { winner := none, priorGen := 0, survivor := none }
  else
    { winner := some (side L.done)
      priorGen := BitVec.ofNat 64 L.done
      survivor := some (corpusHead L.list, L.list) }

end Ledger

/-- The disk, the slabs that boots began to write, and the ledger. -/
structure History where
  disk : Disk Sector
  begun : List HeadRecord
  ledger : Ledger

def start (disk : Disk Sector) : History := ⟨disk, [], .empty⟩

def step (h : History) (b : Boot) : History where
  disk := after h.disk b
  begun := nextSlab (regionOf h.disk) b.rows :: h.begun
  ledger := h.ledger.settle (after h.disk b) (accumulate h.ledger.list b.rows)

/-- A slot that is put together from sectors of slabs begun so far passes the
checksums only if it holds one of them whole. -/
def Rejects (h : History) : Prop :=
  ∀ s out, slotDecode h.disk s = some out →
    (∀ i < out.1.nSectors, ∃ r ∈ h.begun, h.disk (slotBase s + i) = recordSector r i) →
    ∃ r ∈ h.begun, Holds h.disk (slotBase s) r

/-- No sector of the region has a valid checksum: a cleared disk, for one. -/
def Fresh (disk : Disk Sector) : Prop :=
  ∀ s, ∀ i < MAX_SECTORS, Sealed (disk (slotBase s + i)) = false

/-! ## The invariant -/

/-- A list that a slab can hold. -/
structure Kept (rows : List Row) : Prop where
  nonempty : rows ≠ []
  fits : rows.length ≤ CORPUS_PERSIST_MAX_RECORDS
  decodable : Decodable rows

structure Inv (h : History) : Prop where
  bound : h.ledger.done < 2 ^ 64
  sectors : ∀ s, ∀ i < MAX_SECTORS, Sealed (h.disk (slotBase s + i)) = false ∨
    ∃ r ∈ h.begun, h.disk (slotBase s + i) = recordSector r i
  begun : ∀ r ∈ h.begun, ∃ gen rows, r = slab gen rows ∧ Kept rows ∧
    (gen.toNat ≤ h.ledger.done ∨ gen = BitVec.ofNat 64 (h.ledger.done + 1) ∧ rows ∈ h.ledger.since)
  list : h.ledger.done = 0 ∧ h.ledger.list = [] ∨ h.ledger.done ≠ 0 ∧ Kept h.ledger.list ∧
    Holds h.disk (slotBase (side h.ledger.done)) (slab (BitVec.ofNat 64 h.ledger.done) h.ledger.list)
  blank : h.ledger.done = 0 → Sealed (h.disk (slotBase true)) = false
  first : ∀ r, h.disk h.ledger.slot = recordSector r 0 → r.gen.toNat ≠ h.ledger.done
  since : ∀ l ∈ h.ledger.since, Kept l ∧ ¬ Holds h.disk h.ledger.slot (h.ledger.next l)

theorem sectorCount_pos (gen : BitVec 64) (rows : List Row) : 0 < sectorCount (slab gen rows) := by
  rw [sectorCount, blobLen]
  show 0 < (98 + _ + 8 + 504 - 1) / 504
  omega

/-- The first sector of a record tells its generation. -/
theorem gen_of_first {r r' : HeadRecord} (h : recordSector r 0 = recordSector r' 0) : r.gen = r'.gen := by
  have hread : ∀ r : HeadRecord, slice (slice (recordSector r 0).val SEC_META SEC_PAYLOAD) OFF_GEN 8 =
      le 8 r.gen.toNat := by
    intro r
    have hp : slice (recordSector r 0).val SEC_META SEC_PAYLOAD = (payloadAt (blob r) 0).val :=
      payload_stampSector _ _
    rw [hp, slice_payloadAt_zero r (by decide)]
    exact slice_blob r (i := 3) rfl rfl rfl
  refine le_toNat_inj (k := 8) rfl ?_
  rw [← hread r, ← hread r', h]

theorem Inv.start {disk : Disk Sector} (h : Fresh disk) : Inv (start disk) where
  bound := Nat.two_pow_pos 64
  sectors := fun s i hi => .inl (h s i hi)
  begun := fun r hr => by cases hr
  list := .inl ⟨rfl, rfl⟩
  blank := fun _ => h true 0 (by decide)
  first := by
    intro r hr
    have hA := h false 0 (by decide)
    have hsealed := sealed_recordSector r 0
    have hslot : disk (slotBase false + 0) = recordSector r 0 := hr
    rw [← hslot, hA] at hsealed
    cases hsealed
  since := fun l hl => by cases hl

namespace Inv

variable {h : History}

/-- What the slot written next decodes to is older than the last whole slab. -/
theorem older (hinv : Inv h) (hrej : Rejects h) {y : DecodedHead × List UInt8}
    (hy : slotDecode h.disk (side (h.ledger.done + 1)) = some y) : y.1.gen.toNat < h.ledger.done := by
  obtain ⟨hpos, hmax, hgates⟩ := gates_of_slabAt hy
  -- every sector the decoder looked at is sealed, so some boot wrote it
  have hfrom : ∀ i < y.1.nSectors, ∃ r ∈ h.begun,
      h.disk (slotBase (side (h.ledger.done + 1)) + i) = recordSector r i := fun i hi => by
    rcases hinv.sectors (side (h.ledger.done + 1)) i (Nat.lt_of_lt_of_le hi hmax) with hun | hr
    · have hsealed := sealed_of_gate (hgates i hi)
      rw [hun] at hsealed
      cases hsealed
    · exact hr
  obtain ⟨r, hr, hholds⟩ := hrej _ y hy hfrom
  obtain ⟨gen, rows, rfl, hkept, hgen⟩ := hinv.begun r hr
  have hdec : y = decodedOf (slab gen rows) (slabSectors rows.length) := by
    have hd := decode_of_holds hkept.fits hholds
    exact Option.some.inj (hy.symm.trans hd)
  have hne := hinv.first (slab gen rows) (hholds 0 (sectorCount_pos gen rows))
  rw [hdec]
  show gen.toNat < _
  have hgenNe : gen.toNat ≠ h.ledger.done := hne
  rcases hgen with hle | ⟨rfl, hsince⟩
  · omega
  · exact absurd hholds (hinv.since rows hsince).2

/-- A boot reads the ledger's records. -/
theorem reads (hinv : Inv h) (hrej : Rejects h) : regionOf h.disk = h.ledger.readBack := by
  rcases hinv.list with ⟨hzero, -⟩ | ⟨hne, hkept, hholds⟩
  · rw [Ledger.readBack, if_pos hzero]
    refine regionOf_none fun s => ?_
    cases s with
    | true => exact decode_of_unsealed (hinv.blank hzero)
    | false =>
        cases hd : slotDecode h.disk false with
        | none => rfl
        | some y =>
            have hlt := hinv.older hrej (y := y) (by rw [hzero]; exact hd)
            omega
  · have hx := decode_of_holds hkept.fits hholds
    rw [Ledger.readBack, if_neg hne, regionOf_newer hx fun y hy => ?_,
      unpack_slab _ hkept.nonempty hkept.fits hkept.decodable]
    · rfl
    · rw [← side_succ] at hy
      have hlt := hinv.older hrej hy
      rw [BitVec.lt_def]
      show _ < (BitVec.ofNat 64 h.ledger.done).toNat
      rw [BitVec.toNat_ofNat, Nat.mod_eq_of_lt hinv.bound]
      exact hlt

/-- A boot writes the slab of the accumulated list into the ledger's slot. -/
theorem after_eq (hinv : Inv h) (hrej : Rejects h) (b : Boot) :
    nextSlab (regionOf h.disk) b.rows = h.ledger.next (accumulate h.ledger.list b.rows) ∧
    after h.disk b = writeSome h.disk h.ledger.slot
      (h.ledger.next (accumulate h.ledger.list b.rows)) b.reached := by
  have hreads := hinv.reads hrej
  have hslab : nextSlab (regionOf h.disk) b.rows = h.ledger.next (accumulate h.ledger.list b.rows) ∧
      target (regionOf h.disk).winner = h.ledger.slot := by
    rw [hreads]
    rcases hinv.list with ⟨hzero, hnil⟩ | ⟨hne, -, -⟩
    · rw [Ledger.readBack, if_pos hzero, Ledger.next, Ledger.slot, hzero, hnil]
      exact ⟨rfl, rfl⟩
    · rw [Ledger.readBack, if_neg hne, Ledger.slot, side_succ, ← target_some]
      refine ⟨?_, rfl⟩
      rw [Ledger.next, BitVec.ofNat_add]
      rfl
  exact ⟨hslab.1, by rw [after, hslab.1, hslab.2]⟩

theorem kept_accumulate (hinv : Inv h) (b : Boot) : Kept (accumulate h.ledger.list b.rows) := by
  have hdec : Decodable h.ledger.list := by
    rcases hinv.list with ⟨-, hnil⟩ | ⟨-, hkept, -⟩
    · rw [hnil]
      exact fun row hrow => by cases hrow
    · exact hkept.decodable
  exact ⟨accumulate_ne_nil b.nonempty, length_accumulate _ _, decodable_accumulate hdec b.decodable⟩

theorem sectorCount_le {gen : BitVec 64} {rows : List Row} (hkept : Kept rows) :
    sectorCount (slab gen rows) ≤ MAX_SECTORS := by
  rw [sectorCount_slab]
  exact slabSectors_le hkept.fits

end Inv

section step

variable {h : History} {b : Boot}

theorem step_other (hinv : Inv h) (hrej : Rejects h) {i : Nat} (hi : i < MAX_SECTORS) :
    (step h b).disk (slotBase (side h.ledger.done) + i) = h.disk (slotBase (side h.ledger.done) + i) := by
  show after h.disk b _ = _
  rw [(hinv.after_eq hrej b).2, Ledger.slot, side_succ]
  exact writeSome_other (Inv.sectorCount_le (hinv.kept_accumulate b)) hi

theorem step_slot (hinv : Inv h) (hrej : Rejects h) (i : Nat) :
    (step h b).disk (h.ledger.slot + i) =
      recordSector (h.ledger.next (accumulate h.ledger.list b.rows)) i ∨
    (step h b).disk (h.ledger.slot + i) = h.disk (h.ledger.slot + i) := by
  show after h.disk b _ = _ ∨ after h.disk b _ = _
  rw [(hinv.after_eq hrej b).2]
  exact writeSome_or i

theorem step_sectors (hinv : Inv h) (hrej : Rejects h) (s : Bool) (i : Nat) (hi : i < MAX_SECTORS) :
    Sealed ((step h b).disk (slotBase s + i)) = false ∨
      ∃ r ∈ (step h b).begun, (step h b).disk (slotBase s + i) = recordSector r i := by
  have hkeep : (step h b).disk (slotBase s + i) = h.disk (slotBase s + i) →
      Sealed ((step h b).disk (slotBase s + i)) = false ∨
        ∃ r ∈ (step h b).begun, (step h b).disk (slotBase s + i) = recordSector r i := by
    intro heq
    rw [heq]
    exact (hinv.sectors s i hi).imp_right fun ⟨r, hr, he⟩ => ⟨r, List.mem_cons_of_mem _ hr, he⟩
  by_cases hs : s = side h.ledger.done
  · subst hs
    exact hkeep (step_other hinv hrej hi)
  · have hside : side (h.ledger.done + 1) = s := by
      rw [side_succ]
      cases s <;> cases hd : side h.ledger.done <;> simp_all
    rcases step_slot (b := b) hinv hrej i with hnew | hold
    · refine .inr ⟨_, List.mem_cons_self, ?_⟩
      rw [(hinv.after_eq hrej b).1, ← hside]
      exact hnew
    · rw [Ledger.slot, hside] at hold
      exact hkeep hold

/-- No slab came to stand whole: the last one does still. -/
theorem Inv.torn (hinv : Inv h) (hrej : Rejects h)
    (hnone : ∀ l ∈ accumulate h.ledger.list b.rows :: h.ledger.since,
      ¬ Holds (step h b).disk h.ledger.slot (h.ledger.next l))
    (hledger : (step h b).ledger =
      { done := h.ledger.done
        list := h.ledger.list
        since := accumulate h.ledger.list b.rows :: h.ledger.since }) :
    Inv (step h b) := by
  have hkept := hinv.kept_accumulate b
  constructor
  all_goals try rw [hledger]
  · exact hinv.bound
  · exact step_sectors hinv hrej
  · intro r hr
    rcases List.mem_cons.mp hr with rfl | hr
    · exact ⟨_, _, (hinv.after_eq hrej b).1, hkept, .inr ⟨rfl, List.mem_cons_self⟩⟩
    · obtain ⟨gen, rows, he, hk, hgen⟩ := hinv.begun r hr
      exact ⟨gen, rows, he, hk, hgen.imp_right fun ⟨hg, hm⟩ => ⟨hg, List.mem_cons_of_mem _ hm⟩⟩
  · refine hinv.list.imp_right fun ⟨hne, hk, hholds⟩ => ⟨hne, hk, fun i hi => ?_⟩
    rw [step_other hinv hrej (Nat.lt_of_lt_of_le hi (Inv.sectorCount_le hk))]
    exact hholds i hi
  · intro hzero
    have hother := step_other (b := b) hinv hrej (i := 0) (by decide)
    rw [hzero] at hother
    exact (congrArg Sealed hother).trans (hinv.blank hzero)
  · intro r hr
    have hbound := hinv.bound
    rcases step_slot (b := b) hinv hrej 0 with hnew | hold
    · have hgen : r.gen = BitVec.ofNat 64 (h.ledger.done + 1) := gen_of_first (hr.symm.trans hnew)
      rw [hgen, BitVec.toNat_ofNat]
      dsimp only
      omega
    · exact hinv.first r (hold.symm.trans hr)
  · intro l hl
    refine ⟨?_, hnone l hl⟩
    rcases List.mem_cons.mp hl with rfl | hl
    · exact hkept
    · exact (hinv.since l hl).1

/-- A slab came to stand whole: it is the last one now. -/
theorem Inv.settled (hinv : Inv h) (hrej : Rejects h) {l : List Row}
    (hl : l ∈ accumulate h.ledger.list b.rows :: h.ledger.since)
    (hholds : Holds (step h b).disk h.ledger.slot (h.ledger.next l))
    (hledger : (step h b).ledger = { done := h.ledger.done + 1, list := l, since := [] })
    (hbound : h.ledger.done + 1 < 2 ^ 64) : Inv (step h b) := by
  have hkept : Kept l := by
    rcases List.mem_cons.mp hl with rfl | hl
    · exact hinv.kept_accumulate b
    · exact (hinv.since l hl).1
  have hgen : (BitVec.ofNat 64 (h.ledger.done + 1)).toNat = h.ledger.done + 1 := by
    rw [BitVec.toNat_ofNat, Nat.mod_eq_of_lt hbound]
  constructor
  all_goals try rw [hledger]
  · exact hbound
  · exact step_sectors hinv hrej
  · intro r hr
    rcases List.mem_cons.mp hr with rfl | hr
    · exact ⟨_, _, (hinv.after_eq hrej b).1, hinv.kept_accumulate b, .inl (Nat.le_of_eq hgen)⟩
    · obtain ⟨gen, rows, he, hk, hle | ⟨rfl, -⟩⟩ := hinv.begun r hr
      · exact ⟨gen, rows, he, hk, .inl (Nat.le_succ_of_le hle)⟩
      · exact ⟨_, rows, he, hk, .inl (Nat.le_of_eq hgen)⟩
  · exact .inr ⟨Nat.succ_ne_zero _, hkept, hholds⟩
  · exact fun hzero => absurd hzero (Nat.succ_ne_zero _)
  · intro r hr
    -- the other slot still begins as it did: with the slab that was last, or blank
    have hslot : h.disk (slotBase (side h.ledger.done)) = recordSector r 0 := by
      have hother := step_other (b := b) hinv hrej (i := 0) (by decide)
      rw [Nat.add_zero] at hother
      rw [← hother, ← Bool.not_not (side h.ledger.done), ← side_succ, ← side_succ]
      exact hr
    rcases hinv.list with ⟨hzero, -⟩ | ⟨-, hk, hwhole⟩
    · have hblank := hinv.blank hzero
      have hsealed := sealed_recordSector r 0
      rw [hzero] at hslot
      rw [← hslot] at hsealed
      exact absurd (hblank.symm.trans hsealed) (by decide)
    · have hfirst := hwhole 0 (sectorCount_pos _ _)
      rw [Nat.add_zero, hslot] at hfirst
      have hold : r.gen = BitVec.ofNat 64 h.ledger.done := gen_of_first hfirst
      rw [hold, BitVec.toNat_ofNat, Nat.mod_eq_of_lt hinv.bound]
      exact Nat.ne_of_lt (Nat.lt_succ_self _)
  · exact fun l hl => by cases hl

theorem Inv.step (hinv : Inv h) (hrej : Rejects h) (hbound : (step h b).ledger.done < 2 ^ 64) :
    Inv (step h b) := by
  rcases h.ledger.settle_cases (after h.disk b) (accumulate h.ledger.list b.rows) with
    ⟨l, hl, hholds, hledger⟩ | ⟨hnone, hledger⟩
  · have hdone : (Persist.step h b).ledger = { done := h.ledger.done + 1, list := l, since := [] } := hledger
    rw [hdone] at hbound
    exact hinv.settled hrej hl hholds hledger hbound
  · exact hinv.torn hrej hnone hledger

end step

/-- The number of whole slabs never falls. -/
theorem done_mono (h : History) (bs : List Boot) : h.ledger.done ≤ (exec step h bs).ledger.done := by
  refine exec_rel (P := fun _ => True) (R := fun h h' : History => h.ledger.done ≤ h'.ledger.done)
    (fun _ => Nat.le_refl _) Nat.le_trans (fun _ _ _ => trivial) (fun h b _ => ?_) bs trivial
  rcases h.ledger.settle_cases (after h.disk b) (accumulate h.ledger.list b.rows) with
    ⟨l, -, -, hledger⟩ | ⟨-, hledger⟩
  · exact Nat.le_trans (Nat.le_succ _) (Nat.le_of_eq (congrArg Ledger.done hledger).symm)
  · exact Nat.le_of_eq (congrArg Ledger.done hledger).symm

/-- Every state of a run from a fresh region, before its generations run out. -/
theorem inv_exec {h : History} (hinv : Inv h) {bs : List Boot}
    (hrej : Guarded step (fun h _ => Rejects h) h bs) (hbound : (exec step h bs).ledger.done < 2 ^ 64) :
    Inv (exec step h bs) := by
  induction bs generalizing h with
  | nil => exact hinv
  | cons b bs ih =>
      have hle := done_mono (step h b) bs
      exact ih (hinv.step hrej.1 (Nat.lt_of_le_of_lt hle hbound)) hrej.2 hbound

end Yuva.Persist
