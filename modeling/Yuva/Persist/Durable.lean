/-
# `Yuva.Persist.Durable` — what the corpus keeps across crashes

Boots run one after the other, each over the disk the last one left, torn or whole.
The records a boot reads back are those of the ledger (`accumulation_durable`): of
the last boot whose slab stands whole.

    a boot that writes all of its slab     is read back next
    a torn boot                            changes nothing, or completes a slab that
                                           torn boots before it had begun

The second line is why the last boot that wrote its whole slab itself is not always
the one that is read back: a torn boot can write the sectors that an earlier torn
boot of the same generation left out (`torn_pair_read`).  And the 2^64th slab is
never read back, since its generation is 0 (`wrapped_lost`).

A kernel whose boots all curate the same records needs no assumption on the
checksums for the first 2^32 generations (`rejects_of_same_rows`).
-/
import Yuva.Persist.Boots

namespace Yuva.Persist

open Yuva.Bytes Yuva.Prov Yuva.Volatile Yuva.Run
open Yuva.Store (Sector)
open Yuva.Hash (Bytes32)
open Yuva.Mem.Corpus (CORPUS_PERSIST_MAX_RECORDS)

/-! ## The disks a crash leaves -/

/-- The writes of a record's sectors. -/
def slabWrites (base : Nat) (r : HeadRecord) : List (Req Sector) :=
  (List.range (sectorCount r)).map fun i => .write (base + i) (recordSector r i)

theorem mem_slabWrites {base n : Nat} {r : HeadRecord} {s : Sector} :
    Req.write n s ∈ slabWrites base r ↔ ∃ i < sectorCount r, n = base + i ∧ s = recordSector r i := by
  simp only [slabWrites, List.mem_map, List.mem_range, Req.write.injEq]
  constructor
  · rintro ⟨i, hi, rfl, rfl⟩
    exact ⟨i, hi, rfl, rfl⟩
  · rintro ⟨i, hi, rfl, rfl⟩
    exact ⟨i, hi, rfl, rfl⟩

theorem writeSectors_ok : ∀ {ss : List Sector} {d : Dev Sector} {x : Nat}, (∀ n, d.ok n = true) →
    ∃ d', writeSectors d x ss = (true, d') ∧
      Dev.Issued d d' (ss.mapIdx fun i s => .write (x + i) s)
  | [], d, x, _ => ⟨d, rfl, Dev.Issued.refl d⟩
  | s :: ss, d, x, h => by
      obtain ⟨d₁, hissued, ⟨hw, -⟩ | ⟨hw, -⟩⟩ := d.write_cases x s
      · have hserve : ∀ n, d₁.ok n = true := by
          rw [hissued.ok]
          exact h
        obtain ⟨d₂, hrest, hissued'⟩ : ∃ d', writeSectors d₁ (x + 1) ss = (true, d') ∧
            Dev.Issued d₁ d' (ss.mapIdx fun i s => .write (x + 1 + i) s) := writeSectors_ok hserve
        refine ⟨d₂, ?_, ?_⟩
        · rw [writeSectors, hw]
          exact hrest
        · have htrans := hissued.trans hissued'
          simp only [List.mapIdx_cons, Nat.add_zero, Nat.add_assoc, Nat.add_comm 1] at htrans ⊢
          exact htrans
      · have hok : (d.write x s).1 = true := h d.served
        rw [hw] at hok
        cases hok

/-- The sectors `m33_write_slab` cuts out of an encoded record. -/
theorem sectors_of_encode (r : HeadRecord) (n : Nat) :
    ((List.range ((slotBytes (encodeSectors r n)).length / SECTOR)).map fun s =>
      (fixed (slotBytes (encodeSectors r n)) (s * SECTOR) SECTOR : Sector)) = encodeSectors r n := by
  have hlen : (slotBytes (encodeSectors r n)).length = SECTOR * n := by
    rw [length_slotBytes, encodeSectors, List.length_map, List.length_range]
  rw [hlen, Nat.mul_div_cancel_left n (by decide)]
  refine List.map_congr_left fun s hs => Subtype.ext ?_
  have hget : (encodeSectors r n)[s]? = some (recordSector r s) :=
    encodeSectors_getElem?.mpr ⟨List.mem_range.mp hs, rfl⟩
  have hin : s * SECTOR + SECTOR ≤ (slotBytes (encodeSectors r n)).length := by
    rw [hlen, ← Nat.succ_mul, Nat.mul_comm]
    exact Nat.mul_le_mul_left _ (List.mem_range.mp hs)
  rw [fixed_val hin, Nat.mul_comm]
  exact sectorAt_slotBytes hget

/-- A record written to a device that fails no request. -/
theorem m33WriteSlab_ok {d : Dev Sector} (h : ∀ n, d.ok n = true) (base : Nat) (r : HeadRecord) :
    ∃ d', m33WriteSlab d base (slotBytes (encodeSectors r (sectorCount r))) = (true, d') ∧
      Dev.Issued d d' (slabWrites base r) := by
  obtain ⟨d', hwrite, hissued⟩ : ∃ d', writeSectors d base (encodeSectors r (sectorCount r)) = (true, d') ∧
      Dev.Issued d d' ((encodeSectors r (sectorCount r)).mapIdx fun i s => .write (base + i) s) :=
    writeSectors_ok h
  refine ⟨d', (congrArg (writeSectors d base) (sectors_of_encode r (sectorCount r))).trans hwrite, ?_⟩
  have hwrites : (encodeSectors r (sectorCount r)).mapIdx (fun i s => Req.write (base + i) s) =
      slabWrites base r := by
    refine List.mapIdx_eq_iff.mpr fun i => ?_
    by_cases hi : i < sectorCount r
    · rw [encodeSectors_getElem?.mpr ⟨hi, rfl⟩, slabWrites, List.getElem?_map, List.getElem?_range hi]
      rfl
    · simp [slabWrites, encodeSectors, hi]
  rwa [hwrites] at hissued

section crash

variable (disk : Disk Sector) (b : Boot) (curHead : Bytes32)

/-- The slab a boot writes fits its slot. -/
theorem encode_nextSlab : encode (nextSlab (regionOf disk) b.rows) BLOB_CAP SLAB_BYTES =
    some (slotBytes (encodeSectors (nextSlab (regionOf disk) b.rows)
      (sectorCount (nextSlab (regionOf disk) b.rows)))) := by
  have hmax := length_accumulate (regionOf disk).priorRecords b.rows
  have hn := sectorsFor_slab ((regionOf disk).priorGen + 1) hmax
  have hle := slabSectors_le hmax
  have hcap : (accumulate (regionOf disk).priorRecords b.rows).length * Mem.Corpus.CORPUS_CANON_LEN ≤
      SIG_CAP := Nat.le_trans (Nat.mul_le_mul_right _ hmax) (by decide)
  rw [nextSlab, encode, hn, sectorCount_slab]
  refine if_neg ?_
  rw [length_sig, not_or, Nat.not_lt, Nat.not_lt]
  exact ⟨Nat.add_le_add_right (Nat.add_le_add_left hcap _) _, Nat.mul_le_mul_right _ hle⟩

/-- A boot on a device that fails no request reads the region, issues the writes of
its slab in order, and flushes. -/
theorem corpusPersist_issued {cap : BitVec 64} (hcap : CORPUS_PERSIST_BASE + 2 * MAX_SECTORS ≤ cap.toNat) :
    (corpusPersist false (some (b.rows, curHead)) (some cap) (Dev.healthy disk)).1.persisted = true ∧
    (corpusPersist false (some (b.rows, curHead)) (some cap) (Dev.healthy disk)).2.issued =
      slabWrites (target (regionOf disk).winner) (nextSlab (regionOf disk) b.rows) ++ [.flush] := by
  have hread : readRegion (Dev.healthy disk) =
      (regionOf disk, { Dev.healthy disk with served := 0 + 2 * MAX_SECTORS }) :=
    readRegion_ok (d := Dev.healthy disk) fun _ _ => rfl
  obtain ⟨d', hwrite, hissued⟩ := m33WriteSlab_ok
    (d := { Dev.healthy disk with served := 0 + 2 * MAX_SECTORS }) (fun _ => rfl)
    (target (regionOf disk).winner) (nextSlab (regionOf disk) b.rows)
  have hok : d'.ok d'.served = true := by
    rw [hissued.ok]
    rfl
  have hflush : d'.flush = (true, { d' with issued := d'.issued ++ [.flush], served := d'.served + 1 }) := by
    rw [Dev.flush, hok]
    rfl
  simp only [corpusPersist, Bool.false_eq_true, if_false, if_neg b.nonempty, if_neg (Nat.not_lt.mpr hcap),
    hread, encode_nextSlab, hwrite, hflush]
  refine ⟨trivial, ?_⟩
  rw [hissued.issued]
  rfl

/-- A crash at any point of a boot leaves one of the disks `after`, and may leave
each of them. -/
theorem crashImage_iff {cap : BitVec 64} (hcap : CORPUS_PERSIST_BASE + 2 * MAX_SECTORS ≤ cap.toNat)
    (img : Disk Sector) :
    (∃ rs, rs <+: (corpusPersist false (some (b.rows, curHead)) (some cap) (Dev.healthy disk)).2.issued ∧
      CrashImage disk rs img) ↔ ∃ reached, img = after disk { b with reached := reached } := by
  rw [(corpusPersist_issued disk b curHead hcap).2]
  constructor
  · rintro ⟨rs, hpre, hcrash⟩
    have hfrom : ∀ n, img n = disk n ∨ ∃ i < sectorCount (nextSlab (regionOf disk) b.rows),
        n = target (regionOf disk).winner + i ∧
          img n = recordSector (nextSlab (regionOf disk) b.rows) i := fun n => by
      refine (hcrash.old_or_written n).imp_right fun ⟨s, hs, he⟩ => ?_
      have hmem : Req.write n s ∈ slabWrites (target (regionOf disk).winner)
          (nextSlab (regionOf disk) b.rows) := by
        simpa using hpre.subset hs
      obtain ⟨i, hi, hn, rfl⟩ := mem_slabWrites.mp hmem
      exact ⟨i, hi, hn, he⟩
    refine ⟨fun i => decide (img (target (regionOf disk).winner + i) =
      recordSector (nextSlab (regionOf disk) b.rows) i), funext fun x => ?_⟩
    show img x = writeSome _ _ _ _ x
    rw [writeSome]
    split
    · rename_i hx
      have heq := of_decide_eq_true hx.2.2
      rwa [Nat.add_sub_cancel' hx.1] at heq
    · rename_i hx
      rcases hfrom x with hold | ⟨i, hi, rfl, he⟩
      · exact hold
      · refine absurd ⟨Nat.le_add_right _ _, Nat.add_lt_add_left hi _, ?_⟩ hx
        rw [Nat.add_sub_cancel_left]
        exact decide_eq_true he
  · rintro ⟨reached, rfl⟩
    refine ⟨_, List.prefix_append _ _, [], _, rfl, ?_, fun n => ?_⟩
    · intro hmem
      obtain ⟨i, -, hi⟩ := List.mem_map.mp hmem
      cases hi
    · show writeSome _ _ _ _ n = _ ∨ ∃ s, _ ∧ writeSome _ _ _ _ n = s
      rw [writeSome]
      split
      · rename_i hx
        refine .inr ⟨_, mem_slabWrites.mpr ⟨n - target (regionOf disk).winner, ?_, ?_, rfl⟩, rfl⟩
        · have hlt : n < target (regionOf disk).winner + sectorCount (nextSlab (regionOf disk) b.rows) := hx.2.1
          omega
        · exact (Nat.add_sub_cancel' hx.1).symm
      · exact .inl rfl

end crash

/-! ## Runs -/

section run

variable {h : History} {b : Boot}

/-- A boot that wrote all of its slab: the slab stands whole and is the last. -/
theorem step_wrote (hinv : Inv h) (hrej : Rejects h)
    (hall : ∀ i < sectorCount (nextSlab (regionOf h.disk) b.rows), b.reached i = true) :
    (step h b).ledger =
      { done := h.ledger.done + 1, list := accumulate h.ledger.list b.rows, since := [] } := by
  obtain ⟨hslab, hafter⟩ := hinv.after_eq hrej b
  have hholds : Holds (after h.disk b) h.ledger.slot
      (h.ledger.next (accumulate h.ledger.list b.rows)) := by
    intro i hi
    rw [hafter]
    exact writeSome_reached hi (hall i (by rw [hslab]; exact hi))
  exact Ledger.settle_of_holds hholds

/-- A torn boot leaves the list, or a slab that now stands whole becomes the last. -/
theorem step_cases (h : History) (b : Boot) :
    (step h b).ledger.done = h.ledger.done ∧ (step h b).ledger.list = h.ledger.list ∨
    ∃ l ∈ accumulate h.ledger.list b.rows :: h.ledger.since,
      Holds (step h b).disk h.ledger.slot (h.ledger.next l) ∧
      (step h b).ledger = { done := h.ledger.done + 1, list := l, since := [] } := by
  rcases h.ledger.settle_cases (after h.disk b) (accumulate h.ledger.list b.rows) with
    hsettled | ⟨-, hledger⟩
  · exact .inr hsettled
  · have hstep : (step h b).ledger = _ := hledger
    exact .inl ⟨by rw [hstep], by rw [hstep]⟩

end run

/-- A boot completes one slab at most. -/
theorem done_le_length (h : History) (bs : List Boot) :
    (exec step h bs).ledger.done ≤ h.ledger.done + bs.length := by
  induction bs generalizing h with
  | nil => exact Nat.le_refl _
  | cons b bs ih =>
      have hstep : (step h b).ledger.done ≤ h.ledger.done + 1 := by
        rcases step_cases h b with ⟨hdone, -⟩ | ⟨l, -, -, hledger⟩
        · omega
        · rw [hledger]
      have hrest := ih (step h b)
      rw [exec_cons, List.length_cons]
      omega

/-! ## Boots that curate the same records -/

section same

/-- Slabs with different stamps do not mix. -/
theorem rejects_of_stamps {h : History} (hslab : ∀ r ∈ h.begun, ∃ n, sectorsFor r.sig.length = some n)
    (hstamp : ∀ r ∈ h.begun, ∀ r' ∈ h.begun, genTag r.gen = genTag r'.gen → r = r') : Rejects h := by
  intro s out hout hfrom
  obtain ⟨hpos, hmax, hgates⟩ := gates_of_slabAt hout
  have hstamped : ∀ i < out.1.nSectors, ∀ r, h.disk (slotBase s + i) = recordSector r i →
      genTag r.gen = genTag out.1.gen := by
    intro i hi r hr
    have hgate := hgates i hi
    rw [hr] at hgate
    exact (sectorGate_stampSector _ _ _).mp hgate
  obtain ⟨r, hr, h0⟩ := hfrom 0 hpos
  refine ⟨r, hr, fun i hi => ?_⟩
  obtain ⟨n, hn⟩ := hslab r hr
  have hcount : out.1.nSectors = sectorCount r := by
    have hlen : SECTOR ≤ (slabAt h.disk (slotBase s)).length := by
      rw [length_slabAt]
      decide
    have hn' := nSectors_of_decode hn hlen ((sectorAt_slabAt (by decide)).trans (congrArg Subtype.val h0)) hout
    unfold sectorsFor at hn
    split at hn
    · cases hn
    · exact hn'.trans (Option.some.inj hn).symm
  obtain ⟨r', hr', hi'⟩ := hfrom i (by rw [hcount]; exact hi)
  rw [hi', hstamp r' hr' r hr ((hstamped i (by rw [hcount]; exact hi) r' hi').trans
    (hstamped 0 hpos r h0).symm)]

/-- What boots of the same records begin to write. -/
structure Uniform (rows : List Row) (h : History) : Prop where
  since : ∀ l ∈ h.ledger.since, l = accumulate h.ledger.list rows
  gens : ∀ r ∈ h.begun, 0 < r.gen.toNat ∧ r.gen.toNat ≤ h.ledger.done + 1
  unique : ∀ r ∈ h.begun, ∀ r' ∈ h.begun, r.gen = r'.gen → r = r'

variable {rows : List Row} {h : History}

theorem Uniform.rejects (hinv : Inv h) (hu : Uniform rows h) (hdone : h.ledger.done < 2 ^ 32) : Rejects h := by
  refine rejects_of_stamps (fun r hr => ?_) fun r hr r' hr' htag => ?_
  · obtain ⟨gen, l, rfl, hkept, -⟩ := hinv.begun r hr
    exact ⟨_, sectorsFor_slab gen hkept.fits⟩
  · obtain ⟨hpos, hle⟩ := hu.gens r hr
    obtain ⟨hpos', hle'⟩ := hu.gens r' hr'
    have hmod : r.gen.toNat % 2 ^ 32 = r'.gen.toNat % 2 ^ 32 := by
      have hnat := congrArg BitVec.toNat htag
      rwa [genTag, genTag, BitVec.toNat_setWidth, BitVec.toNat_setWidth] at hnat
    exact hu.unique r hr r' hr' (BitVec.eq_of_toNat_eq (by omega))

theorem Uniform.step (hinv : Inv h) (hu : Uniform rows h) (hdone : h.ledger.done < 2 ^ 32) {b : Boot}
    (hb : b.rows = rows) : Uniform rows (step h b) := by
  have hslab := (hinv.after_eq (hu.rejects hinv hdone) b).1
  have hgen : (BitVec.ofNat 64 (h.ledger.done + 1)).toNat = h.ledger.done + 1 := by
    rw [BitVec.toNat_ofNat]
    omega
  -- an older slab of the generation being written is the one this boot writes
  have hsame : ∀ r ∈ h.begun, r.gen = BitVec.ofNat 64 (h.ledger.done + 1) →
      r = h.ledger.next (accumulate h.ledger.list b.rows) := by
    intro r hr hrgen
    obtain ⟨gen, l, rfl, -, hle | ⟨rfl, hl⟩⟩ := hinv.begun r hr
    · have hgen' : gen = BitVec.ofNat 64 (h.ledger.done + 1) := hrgen
      rw [hgen', hgen] at hle
      omega
    · rw [hu.since l hl, hb]
      rfl
  have hbegun : (Persist.step h b).begun =
      h.ledger.next (accumulate h.ledger.list b.rows) :: h.begun := congrArg (· :: h.begun) hslab
  have hle := done_mono h [b]
  constructor
  · intro l hl
    rcases h.ledger.settle_cases (after h.disk b) (accumulate h.ledger.list b.rows) with
      ⟨l', -, -, hledger⟩ | ⟨-, hledger⟩
    · have hstep : (Persist.step h b).ledger = _ := hledger
      rw [hstep] at hl
      cases hl
    · have hstep : (Persist.step h b).ledger = _ := hledger
      rw [hstep] at hl ⊢
      rcases List.mem_cons.mp hl with rfl | hl
      · rw [hb]
      · exact hu.since l hl
  · intro r hr
    rw [hbegun] at hr
    rcases List.mem_cons.mp hr with rfl | hr
    · show 0 < (BitVec.ofNat 64 (h.ledger.done + 1)).toNat ∧ (BitVec.ofNat 64 (h.ledger.done + 1)).toNat ≤ _
      rw [hgen]
      exact ⟨Nat.succ_pos _, Nat.succ_le_succ hle⟩
    · exact ⟨(hu.gens r hr).1, Nat.le_trans (hu.gens r hr).2 (Nat.succ_le_succ hle)⟩
  · intro r hr r' hr' he
    rw [hbegun] at hr hr'
    rcases List.mem_cons.mp hr with rfl | hr
    · rcases List.mem_cons.mp hr' with rfl | hr'
      · rfl
      · exact (hsame r' hr' he.symm).symm
    · rcases List.mem_cons.mp hr' with rfl | hr'
      · exact hsame r hr he
      · exact hu.unique r hr r' hr' he

/-- A kernel whose boots all curate the same records: the checksums reject every
mixture, torn as the boots may be. -/
theorem rejects_of_same_rows {disk : Disk Sector} (hfresh : Fresh disk) {boots : List Boot}
    (hrows : ∀ b ∈ boots, b.rows = rows) (hdone : (exec step (start disk) boots).ledger.done < 2 ^ 32) :
    Guarded step (fun h _ => Rejects h) (start disk) boots := by
  have hrun : ∀ {bs : List Boot} {h : History}, Inv h → Uniform rows h → (∀ b ∈ bs, b.rows = rows) →
      (exec step h bs).ledger.done < 2 ^ 32 → Guarded step (fun h _ => Rejects h) h bs := by
    intro bs
    induction bs with
    | nil => intro h _ _ _ _; exact trivial
    | cons b bs ih =>
        intro h hinv hu hrows hdone
        have hlater := Nat.lt_of_le_of_lt (done_mono (step h b) bs) hdone
        have hnow := Nat.lt_of_le_of_lt (done_mono h [b]) hlater
        have hrej := hu.rejects hinv hnow
        refine ⟨hrej, ih (hinv.step hrej (Nat.lt_trans hlater (by decide)))
          (hu.step hinv hnow (hrows b List.mem_cons_self))
          (fun b' hb' => hrows b' (List.mem_cons_of_mem _ hb')) hdone⟩
  have hempty : Uniform rows (start disk) := {
    since := fun _ h => (nomatch h)
    gens := fun _ h => (nomatch h)
    unique := fun _ h => (nomatch h) }
  exact hrun (Inv.start hfresh) hempty hrows hdone

end same

/-! ## What a boot reads -/

/-- On a fresh region, with any sequence of boots, each of which crashes with any subset
of its slab's sectors written: if the checksums never accept a mixture of slabs, a
boot reads back the ledger's records under the fold of exactly these, as long as
fewer than 2^64 slabs have come to stand whole.  A boot that wrote its whole slab
makes the list with its own records behind it, cut to the most recent, the next; a
boot that did not leaves the list as it was, unless it completes a slab begun since
the last whole one. -/
theorem accumulation_durable {disk : Disk Sector} (hfresh : Fresh disk) {boots : List Boot}
    (hrej : Guarded step (fun h _ => Rejects h) (start disk) boots) (pre : List Boot) (b : Boot)
    (post : List Boot) (hboots : boots = pre ++ b :: post)
    (hdone : (exec step (start disk) pre).ledger.done < 2 ^ 64) :
    let h := exec step (start disk) pre
    regionOf h.disk = h.ledger.readBack ∧
    ((∀ i < sectorCount (nextSlab (regionOf h.disk) b.rows), b.reached i = true) →
      (step h b).ledger =
        { done := h.ledger.done + 1, list := (h.ledger.list ++ b.rows).rtake CORPUS_PERSIST_MAX_RECORDS,
          since := [] }) ∧
    ((step h b).ledger.done = h.ledger.done ∧ (step h b).ledger.list = h.ledger.list ∨
      ∃ l ∈ (h.ledger.list ++ b.rows).rtake CORPUS_PERSIST_MAX_RECORDS :: h.ledger.since,
        Holds (step h b).disk h.ledger.slot (h.ledger.next l) ∧
        (step h b).ledger = { done := h.ledger.done + 1, list := l, since := [] }) := by
  rw [hboots] at hrej
  obtain ⟨hpre, hnow, -⟩ := guarded_append.mp hrej
  have hinv := inv_exec (Inv.start hfresh) hpre hdone
  intro h
  rw [← accumulate_eq]
  exact ⟨hinv.reads hnow, step_wrote hinv hnow, step_cases _ b⟩

/-- A boot that reports as much as it is told to. -/
def sampleBoot (rows : List Row) (hne : rows ≠ []) (h : ∀ row ∈ rows, ∃ t, row = sampleRow t)
    (reached : Nat → Bool) : Boot := ⟨rows, hne, decodable_sampleRow h, reached⟩

/-- Six records fill two sectors. -/
def six : List Row := List.replicate 6 (sampleRow 7)

def sixBoot (reached : Nat → Bool) : Boot :=
  sampleBoot six (List.cons_ne_nil _ _) (fun _ hrow => ⟨7, List.eq_of_mem_replicate hrow⟩) reached

def blankDisk : Disk Sector := fun _ => blankSector

theorem fresh_blankDisk : Fresh blankDisk := fun _ _ _ => unsealed_blankSector

/-- Boots of six records each on a cleared disk. -/
theorem rejects_sixBoot (reached : List (Nat → Bool)) (hlen : reached.length < 2 ^ 32) :
    Guarded step (fun h _ => Rejects h) (start blankDisk) (reached.map sixBoot) := by
  have hrows : ∀ b ∈ reached.map sixBoot, b.rows = six := by
    intro b hb
    obtain ⟨r, -, rfl⟩ := List.mem_map.mp hb
    rfl
  refine rejects_of_same_rows fresh_blankDisk hrows ?_
  have hle := done_le_length (start blankDisk) (reached.map sixBoot)
  rw [List.length_map] at hle
  exact Nat.lt_of_le_of_lt hle (by rw [show (start blankDisk).ledger.done = 0 from rfl]; omega)

/-- A whole slab over a torn one of the same generation is read back, and the next whole one adds to it. -/
theorem sixBoot_read :
    let h := exec step (start blankDisk) [sixBoot (· == 0), sixBoot fun _ => true]
    regionOf h.disk = h.ledger.readBack ∧ (step h (sixBoot fun _ => true)).ledger =
      { done := h.ledger.done + 1, list := (h.ledger.list ++ six).rtake CORPUS_PERSIST_MAX_RECORDS, since := [] } := by
  have hdone := done_le_length (start blankDisk) [sixBoot (· == 0), sixBoot fun _ => true]
  obtain ⟨hread, hwrote, -⟩ := accumulation_durable fresh_blankDisk
    (rejects_sixBoot [(· == 0), fun _ => true, fun _ => true] (by decide)) [sixBoot (· == 0), sixBoot fun _ => true]
    (sixBoot fun _ => true) [] rfl (Nat.lt_of_le_of_lt hdone (by decide))
  exact ⟨hread, hwrote fun _ _ => rfl⟩

/-! ## The last boot that wrote all of its slab -/

/-- The list of the last boot that itself wrote its whole slab. -/
def lastWritten (list : List Row) : List Boot → List Row
  | [] => list
  | b :: bs =>
      if ∀ i < slabSectors (accumulate list b.rows).length, b.reached i = true then
        lastWritten (accumulate list b.rows) bs
      else lastWritten list bs

theorem accumulate_six : accumulate [] six = six := by
  simp only [accumulate, List.nil_append]
  exact if_neg (by decide)

theorem slabSectors_six : slabSectors six.length = 2 := by decide

/-- Before any slab is whole, boots of six records write this one. -/
theorem first_slab {h : History} (hdone : h.ledger.done = 0) (hlist : h.ledger.list = [])
    (reached : Nat → Bool) : accumulate h.ledger.list (sixBoot reached).rows = six ∧
      h.ledger.slot = slotBase false ∧ h.ledger.next six = slab 1 six := by
  rw [Ledger.slot, Ledger.next, hdone, hlist]
  exact ⟨accumulate_six, rfl, rfl⟩

theorem step_first {h : History} (hinv : Inv h) (hrej : Rejects h) (hdone : h.ledger.done = 0)
    (hlist : h.ledger.list = []) (reached : Nat → Bool) :
    (step h (sixBoot reached)).disk = writeSome h.disk (slotBase false) (slab 1 six) reached := by
  obtain ⟨hacc, hslot, hnext⟩ := first_slab hdone hlist reached
  have hafter := (hinv.after_eq hrej (sixBoot reached)).2
  rw [hacc, hslot, hnext] at hafter
  exact hafter

theorem sectorCount_six : sectorCount (slab 1 six) = 2 := by
  rw [sectorCount_slab, slabSectors_six]

/-- A torn boot on the cleared disk leaves the ledger as empty as before. -/
theorem torn_first {h : History} (hinv : Inv h) (hrej : Rejects h) (hdone : h.ledger.done = 0)
    (hlist : h.ledger.list = []) (hsince : h.ledger.since = [])
    (hblank : h.disk (slotBase false + 1) = blankSector) :
    (step h (sixBoot (· == 0))).ledger.done = 0 ∧ (step h (sixBoot (· == 0))).ledger.list = [] := by
  obtain ⟨hacc, hslot, hnext⟩ := first_slab hdone hlist (· == 0)
  rcases step_cases h (sixBoot (· == 0)) with hkeep | ⟨l, hl, hholds, -⟩
  · rwa [hdone, hlist] at hkeep
  · rw [hacc, hsince] at hl
    rw [List.mem_singleton.mp hl, hslot, hnext] at hholds
    -- sector 1 is still blank
    have hone := hholds 1 (by rw [sectorCount_six]; decide)
    rw [step_first hinv hrej hdone hlist, writeSome_unreached rfl, hblank] at hone
    have hsealed := sealed_recordSector (slab 1 six) 1
    rw [← hone, unsealed_blankSector] at hsealed
    cases hsealed

/-- A second torn boot, on the disk the first left: the slab stands whole. -/
theorem torn_second {h : History} (hinv : Inv h) (hrej : Rejects h) (hdone : h.ledger.done = 0)
    (hlist : h.ledger.list = []) {disk : Disk Sector}
    (hdisk : h.disk = writeSome disk (slotBase false) (slab 1 six) (· == 0)) :
    (step h (sixBoot (· == 1))).ledger = { done := 1, list := six, since := [] } := by
  obtain ⟨hacc, hslot, hnext⟩ := first_slab hdone hlist (· == 1)
  have hafter := step_first hinv hrej hdone hlist (· == 1)
  have hholds : Holds (step h (sixBoot (· == 1))).disk h.ledger.slot (h.ledger.next six) := by
    intro i hi
    rw [hnext, sectorCount_six] at hi
    rw [hslot, hnext, hafter, hdisk]
    rcases i with _ | _ | i
    · rw [writeSome_unreached rfl]
      exact writeSome_reached (by rw [sectorCount_six]; decide) rfl
    · exact writeSome_reached (by rw [sectorCount_six]; decide) rfl
    · omega
  show h.ledger.settle (step h (sixBoot (· == 1))).disk (accumulate h.ledger.list (sixBoot (· == 1)).rows) = _
  rw [hacc, Ledger.settle_of_holds hholds, hdone]

/-- Two torn boots, of which the second wrote what the first left out. -/
theorem torn_pair_read :
    lastWritten [] [sixBoot (· == 0), sixBoot (· == 1)] = [] ∧
    (regionOf (exec step (start blankDisk) [sixBoot (· == 0), sixBoot (· == 1)]).disk).survivor =
      some (corpusHead six, six) := by
  constructor
  · have hacc : ∀ reached, accumulate [] (sixBoot reached).rows = six := fun _ => accumulate_six
    rw [lastWritten, hacc, slabSectors_six, if_neg (by decide), lastWritten, hacc, slabSectors_six,
      if_neg (by decide), lastWritten]
  · obtain ⟨hrej₀, hrej₁, hrej₂, -⟩ := rejects_sixBoot [(· == 0), (· == 1), fun _ => true] (by decide)
    have hinv₀ := Inv.start fresh_blankDisk
    have hdone₁ := done_le_length (start blankDisk) [sixBoot (· == 0)]
    have hdone₂ := done_le_length (start blankDisk) [sixBoot (· == 0), sixBoot (· == 1)]
    have hinv₁ := hinv₀.step hrej₀ (Nat.lt_of_le_of_lt hdone₁ (by decide))
    have hinv₂ := hinv₁.step hrej₁ (Nat.lt_of_le_of_lt hdone₂ (by decide))
    obtain ⟨hdone, hlist⟩ := torn_first hinv₀ hrej₀ rfl rfl rfl rfl
    have hledger := torn_second hinv₁ hrej₁ hdone hlist (step_first hinv₀ hrej₀ rfl rfl (· == 0))
    rw [exec_cons, exec_cons, exec_nil, hinv₂.reads hrej₂, hledger]
    rfl

/-! ## Generations run out -/

/-- Every slot holds a slab whole, or begins blank. -/
def Clean (h : History) : Prop :=
  ∀ s, (∃ r ∈ h.begun, sectorCount r ≤ MAX_SECTORS ∧ Holds h.disk (slotBase s) r) ∨
    Sealed (h.disk (slotBase s)) = false

theorem Clean.rejects {h : History} (hclean : Clean h) : Rejects h := by
  intro s out hout _
  rcases hclean s with ⟨r, hr, -, hholds⟩ | hblank
  · exact ⟨r, hr, hholds⟩
  · have hnone : slotDecode h.disk s = none := decode_of_unsealed hblank
    rw [hnone] at hout
    cases hout

theorem target_slot (winner : Option Bool) : ∃ s, target winner = slotBase (!s) := by
  cases winner with
  | none => exact ⟨true, rfl⟩
  | some s => exact ⟨s, target_some s⟩

theorem Clean.step {h : History} (hclean : Clean h) {b : Boot} (hall : ∀ i, b.reached i = true) :
    Clean (step h b) := by
  have hcount : sectorCount (nextSlab (regionOf h.disk) b.rows) ≤ MAX_SECTORS := by
    rw [nextSlab, sectorCount_slab]
    exact slabSectors_le (length_accumulate _ _)
  obtain ⟨t, ht⟩ := target_slot (regionOf h.disk).winner
  have hdisk : (Persist.step h b).disk =
      writeSome h.disk (slotBase (!t)) (nextSlab (regionOf h.disk) b.rows) b.reached := by
    rw [← ht]
    rfl
  intro s
  by_cases hs : s = t
  · subst hs
    have hsame : ∀ i < MAX_SECTORS, (Persist.step h b).disk (slotBase s + i) = h.disk (slotBase s + i) := by
      intro i hi
      rw [hdisk]
      exact writeSome_other hcount hi
    rcases hclean s with ⟨r, hr, hle, hholds⟩ | hblank
    · refine .inl ⟨r, List.mem_cons_of_mem _ hr, hle, fun i hi => ?_⟩
      rw [hsame i (Nat.lt_of_lt_of_le hi hle)]
      exact hholds i hi
    · refine .inr ?_
      have hzero := hsame 0 (by decide)
      rw [Nat.add_zero] at hzero
      rw [hzero]
      exact hblank
  · have hst : s = !t := Bool.eq_not_of_ne hs
    refine .inl ⟨_, List.mem_cons_self, hcount, fun i hi => ?_⟩
    rw [hst, hdisk]
    exact writeSome_reached hi (hall i)

/-- Boots that all write their whole slab: as many slabs stand whole, and the list is
that of the last. -/
theorem whole_run {bs : List Boot} {h : History} (hinv : Inv h) (hclean : Clean h)
    (hall : ∀ b ∈ bs, ∀ i, b.reached i = true) (hbound : h.ledger.done + bs.length < 2 ^ 64) :
    Guarded step (fun h _ => Rejects h) h bs ∧ Inv (exec step h bs) ∧ Clean (exec step h bs) ∧
      (exec step h bs).ledger.done = h.ledger.done + bs.length ∧
      (exec step h bs).ledger.list = lastWritten h.ledger.list bs := by
  induction bs generalizing h with
  | nil => exact ⟨trivial, hinv, hclean, rfl, rfl⟩
  | cons b bs ih =>
      have hrej := hclean.rejects
      have hb := hall b List.mem_cons_self
      have hledger := step_wrote hinv hrej (b := b) fun i _ => hb i
      have hone : (step h b).ledger.done = h.ledger.done + 1 := by rw [hledger]
      rw [List.length_cons] at hbound
      obtain ⟨hguard, hinv', hclean', hdone, hlist⟩ := ih (hinv.step hrej (by omega)) (hclean.step hb)
        (fun b' hb' => hall b' (List.mem_cons_of_mem _ hb')) (by omega)
      refine ⟨⟨hrej, hguard⟩, hinv', hclean', ?_, ?_⟩
      · rw [exec_cons, hdone, hone, List.length_cons]
        omega
      · rw [exec_cons, hlist, hledger, lastWritten, if_pos fun i _ => hb i]

/-- After 2^64 - 1 whole slabs the next has generation 0, and is not read back. -/
theorem regionOf_wrapped {h : History} (hinv : Inv h) (hrej : Rejects h)
    (hdone : h.ledger.done + 1 = 2 ^ 64) {b : Boot} (hall : ∀ i, b.reached i = true) :
    (regionOf (step h b).disk).priorRecords = h.ledger.list := by
  have hmax : h.ledger.done ≠ 0 := by omega
  rcases hinv.list with ⟨hzero, -⟩ | ⟨-, hkept, hholds⟩
  · exact absurd hzero hmax
  · have hcur : Holds (step h b).disk (slotBase (side h.ledger.done))
        (slab (BitVec.ofNat 64 h.ledger.done) h.ledger.list) := by
      intro i hi
      rw [step_other hinv hrej (Nat.lt_of_lt_of_le hi (Inv.sectorCount_le hkept))]
      exact hholds i hi
    have hnew : Holds (step h b).disk h.ledger.slot
        (h.ledger.next (accumulate h.ledger.list b.rows)) := by
      intro i hi
      show after h.disk b _ = _
      rw [(hinv.after_eq hrej b).2]
      exact writeSome_reached hi (hall i)
    have hx := decode_of_holds hkept.fits hcur
    have hread := regionOf_newer hx fun y hy => by
      have hy' := decode_of_holds (hinv.kept_accumulate b).fits hnew
      have heq : slotDecode (step h b).disk (!side h.ledger.done) = some y := hy
      rw [← side_succ] at heq
      have hgen := Option.some.inj (heq.symm.trans hy')
      rw [hgen]
      show BitVec.ofNat 64 (h.ledger.done + 1) < BitVec.ofNat 64 h.ledger.done
      rw [BitVec.lt_def, BitVec.toNat_ofNat, BitVec.toNat_ofNat, hdone]
      omega
    rw [hread, unpack_slab _ hkept.nonempty hkept.fits hkept.decodable]
    rfl

theorem mem_lastWritten {row : Row} : ∀ {bs : List Boot} {list : List Row},
    row ∈ lastWritten list bs → row ∈ list ∨ ∃ b ∈ bs, row ∈ b.rows
  | [], _, h => .inl h
  | b :: bs, list, h => by
      rw [lastWritten] at h
      split at h
      · rcases mem_lastWritten h with hacc | ⟨b', hb', hrow⟩
        · rcases mem_of_accumulate hacc with hlist | hrow
          · exact .inl hlist
          · exact .inr ⟨b, List.mem_cons_self, hrow⟩
        · exact .inr ⟨b', List.mem_cons_of_mem _ hb', hrow⟩
      · rcases mem_lastWritten h with hlist | ⟨b', hb', hrow⟩
        · exact .inl hlist
        · exact .inr ⟨b', List.mem_cons_of_mem _ hb', hrow⟩

theorem lastWritten_append (list : List Row) (bs bs' : List Boot) :
    lastWritten list (bs ++ bs') = lastWritten (lastWritten list bs) bs' := by
  induction bs generalizing list with
  | nil => rfl
  | cons b bs ih =>
      rw [List.cons_append, lastWritten, lastWritten]
      split
      · exact ih _
      · exact ih _

/-- The latest record is always kept. -/
theorem mem_accumulate_last (prior : List Row) (row : Row) : row ∈ accumulate prior [row] := by
  rw [accumulate]
  split
  · have hle : (prior ++ [row]).length - CORPUS_PERSIST_MAX_RECORDS ≤ prior.length := by
      rw [List.length_append, List.length_singleton]
      have hpos : 0 < CORPUS_PERSIST_MAX_RECORDS := by decide
      omega
    rw [List.drop_append_of_le_length hle]
    exact List.mem_append_right _ List.mem_cons_self
  · exact List.mem_append_right _ List.mem_cons_self

/-- A boot of one record that writes its whole slab. -/
def oneBoot (t : BitVec 64) : Boot :=
  sampleBoot [sampleRow t] (List.cons_ne_nil _ _) (fun _ hrow => ⟨t, List.mem_singleton.mp hrow⟩) fun _ => true

/-- 2^64 - 1 boots of one record and one of another, on a cleared disk. -/
theorem wrapped_lost : ∃ boots : List Boot, boots.length = 2 ^ 64 ∧
    Guarded step (fun h _ => Rejects h) (start blankDisk) boots ∧
    (regionOf (exec step (start blankDisk) boots).disk).priorRecords ≠ lastWritten [] boots := by
  obtain ⟨n, hn⟩ : ∃ n, n + 1 = 2 ^ 64 := ⟨2 ^ 64 - 1, rfl⟩
  have hclean : Clean (start blankDisk) := fun s => .inr unsealed_blankSector
  have hall : ∀ b ∈ List.replicate n (oneBoot 7), ∀ i, b.reached i = true := by
    intro b hb i
    rw [List.eq_of_mem_replicate hb]
    rfl
  obtain ⟨hguard, hinv, hclean', hdone, hlist⟩ := whole_run (Inv.start fresh_blankDisk) hclean hall (by
    rw [List.length_replicate, show (start blankDisk).ledger.done = 0 from rfl]
    omega)
  rw [List.length_replicate, show (start blankDisk).ledger.done = 0 from rfl, Nat.zero_add] at hdone
  have hread := regionOf_wrapped hinv hclean'.rejects (by rw [hdone, hn]) (b := oneBoot 8) fun _ => rfl
  refine ⟨List.replicate n (oneBoot 7) ++ [oneBoot 8], ?_, ?_, ?_⟩
  · rw [List.length_append, List.length_replicate, List.length_singleton, hn]
  · exact guarded_append.mpr ⟨hguard, hclean'.rejects, trivial⟩
  · have hmem : sampleRow 8 ∈ lastWritten [] (List.replicate n (oneBoot 7) ++ [oneBoot 8]) := by
      have hwrote : ∀ i, (oneBoot 8).reached i = true := fun _ => rfl
      rw [lastWritten_append, lastWritten, if_pos fun i _ => hwrote i]
      exact mem_accumulate_last _ _
    intro heq
    rw [← heq, exec_append, exec_cons, exec_nil, hread, hlist] at hmem
    rcases mem_lastWritten hmem with hnil | ⟨b, hb, hrow⟩
    · cases hnil
    · rw [List.eq_of_mem_replicate hb] at hrow
      exact absurd (List.mem_singleton.mp hrow) (by decide)

/-- So the last boot that wrote its whole slab is not always the one that is read. -/
theorem lastWritten_not_read :
    (Fresh blankDisk ∧
      Guarded step (fun h _ => Rejects h) (start blankDisk)
        [sixBoot (· == 0), sixBoot (· == 1), sixBoot fun _ => true] ∧
      lastWritten [] [sixBoot (· == 0), sixBoot (· == 1)] = [] ∧
      (regionOf (exec step (start blankDisk) [sixBoot (· == 0), sixBoot (· == 1)]).disk).survivor =
        some (corpusHead six, six)) ∧
    ∃ boots : List Boot, boots.length = 2 ^ 64 ∧
      Guarded step (fun h _ => Rejects h) (start blankDisk) boots ∧
      (regionOf (exec step (start blankDisk) boots).disk).priorRecords ≠ lastWritten [] boots :=
  ⟨⟨fresh_blankDisk, rejects_sixBoot [(· == 0), (· == 1), fun _ => true] (by decide), torn_pair_read.1,
    torn_pair_read.2⟩, wrapped_lost⟩

end Yuva.Persist
