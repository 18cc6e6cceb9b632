/-
# `Yuva.Prov.Torn` — a head commit cut short

A commit overwrites the staler of two slots, sector by sector; the power may fail
between any two sectors, and the device may have reordered them.  What is left in
the slot is a mixture of the old record's sectors and the new record's, two
records that need not have the same number of sectors.

    decode a mixture     nothing, the old record, or the new one
    recover both slots   the prior head, or the new one

Only the stamp tells the sectors of two records apart, and the stamp is the low
half of the generation: both hold for generations whose low halves differ.  For
generations 2^32 apart a mixture may decode to a record that was never written;
the end of this module has one.
-/
import Yuva.Prov.Head

namespace Yuva.Prov

open Yuva.Bytes
open Yuva.Store (Sector fnv1a64)

/-- The bytes of a slot. -/
def slotBytes (slot : List Sector) : List UInt8 := (slot.map Subtype.val).flatten

/-- The slot that holds the newer head, with that head. -/
def recover (a b : Option (DecodedHead × List UInt8)) : Option (DecodedHead × List UInt8) :=
  match pickNewer (a.map fun d => d.1.gen) (b.map fun d => d.1.gen) with
  | none => none
  | some false => a
  | some true => b

/-- A commit of `new` over `old`, cut short: each sector is one of the old record or
one of the new; past the old record's end it may also be what was there before,
which does not pass for a sector of the new record. -/
def Torn (old new : HeadRecord) (m n : Nat) (slot : List Sector) : Prop :=
  ∀ i s, slot[i]? = some s → (encodeSectors old m)[i]? = some s ∨
    (encodeSectors new n)[i]? = some s ∨ m ≤ i ∧ sectorGate s.val (genTag new.gen) = false

theorem encodeSectors_getElem? {r : HeadRecord} {n i : Nat} {s : Sector} :
    (encodeSectors r n)[i]? = some s ↔ i < n ∧ s = recordSector r i := by
  by_cases hi : i < n
  · simp only [encodeSectors, List.getElem?_map, List.getElem?_range hi, Option.map_some,
      Option.some.injEq, hi, true_and]
    exact eq_comm
  · simp [encodeSectors, hi]

theorem length_slotBytes (slot : List Sector) : (slotBytes slot).length = SECTOR * slot.length := by
  rw [slotBytes, length_flatten_of_eq (k := SECTOR), List.length_map]
  intro f hf
  obtain ⟨s, -, rfl⟩ := List.mem_map.mp hf
  exact s.property

theorem sectorAt_slotBytes {slot : List Sector} {i : Nat} {s : Sector} (h : slot[i]? = some s) :
    sectorAt (slotBytes slot) i = s.val := by
  have hmem : ∀ f ∈ slot.map Subtype.val, f.length = SECTOR := by
    intro f hf
    obtain ⟨s, -, rfl⟩ := List.mem_map.mp hf
    exact s.property
  have hi : (slot.map Subtype.val)[i]? = some s.val := by
    rw [List.getElem?_map, h]
    rfl
  have hs := slice_flatten [] hmem hi
  rwa [List.append_nil] at hs

/-- Sixteen zero bytes behind sixteen given ones. -/
def headOf (bytes : List UInt8) (h : bytes.length = 16) : Block HEAD_LEN :=
  ⟨bytes ++ List.replicate 16 0, by rw [List.length_append, h, List.length_replicate]; rfl⟩

/-- Two records of two sectors, whose first 504 blob bytes have the same FNV-1a-64. -/
def oldHead : HeadRecord where
  gen := 1
  q := 0
  head := headOf [116, 58, 224, 163, 107, 174, 180, 41, 176, 90, 70, 162, 248, 229, 93, 63] rfl
  iId := zeros I_LEN
  pubroot := zeros ROOT_LEN
  sig := List.replicate 406 0 ++ [1]

def newHead : HeadRecord where
  gen := 0x100000001
  q := 0
  head := headOf [68, 75, 100, 5, 78, 116, 48, 213, 81, 34, 195, 241, 7, 109, 207, 70] rfl
  iId := zeros I_LEN
  pubroot := zeros ROOT_LEN
  sig := List.replicate 406 0 ++ [2]

theorem length_sig : oldHead.sig.length = 407 ∧ newHead.sig.length = 407 := by
  constructor
  · rw [oldHead, List.length_append, List.length_replicate, List.length_singleton]
  · rw [newHead, List.length_append, List.length_replicate, List.length_singleton]

/-- Sector 0 of the new record before sector 1 of the old. -/
def tornSlot (old new : HeadRecord) : List Sector := [recordSector new 0, recordSector old 1]

theorem torn_tornSlot (old new : HeadRecord) : Torn old new 2 2 (tornSlot old new) := by
  intro i s hs
  rcases i with _ | _ | i
  · exact .inr (.inl (encodeSectors_getElem?.mpr ⟨by decide, (Option.some.inj hs).symm⟩))
  · exact .inl (encodeSectors_getElem?.mpr ⟨by decide, (Option.some.inj hs).symm⟩)
  · simp [tornSlot] at hs

section torn

variable {old new : HeadRecord} {m n b : Nat} {slot : List Sector}

/-- A slot that decodes under sector 0 of a record, and whose sectors either belong
to the record or fail its gate, is the record. -/
theorem decode_of_first {r : HeadRecord} {k : Nat} (hk : sectorsFor r.sig.length = some k)
    (h0 : slot[0]? = some (recordSector r 0))
    (hgate : ∀ i s, i < k → slot[i]? = some s → s = recordSector r i ∨
      sectorGate s.val (genTag r.gen) = false) :
    decode (slotBytes slot) b = none ∨ decode (slotBytes slot) b = some (decodedOf r k) := by
  cases hd : decode (slotBytes slot) b with
  | none => exact .inl rfl
  | some out =>
      obtain ⟨hlen, hb, hpass⟩ := gates_of_decode hk (sectorAt_slotBytes h0) hd
      refine .inr ?_
      rw [← hd]
      refine decode_sectors hk hlen hb fun i hi => ?_
      have hin : i < slot.length := by
        rw [length_slotBytes, Nat.mul_comm] at hlen
        exact Nat.lt_of_lt_of_le hi (Nat.le_of_mul_le_mul_left hlen (by decide))
      have hget : slot[i]? = some slot[i] := List.getElem?_eq_getElem hin
      have hp := hpass i hi
      rw [sectorAt_slotBytes hget] at hp ⊢
      rcases hgate i _ hi hget with heq | hfail
      · rw [heq]
      · rw [hfail] at hp
        cases hp

/-- A sector of one record fails the gate of a record with another stamp. -/
theorem recordSector_gate {r r' : HeadRecord} (h : genTag r.gen ≠ genTag r'.gen) (i : Nat) :
    sectorGate (recordSector r i).val (genTag r'.gen) = false :=
  Bool.eq_false_iff.mpr fun hg => h ((sectorGate_stampSector _ _ _).mp hg)

theorem decode_mixture (hm : sectorsFor old.sig.length = some m)
    (hn : sectorsFor new.sig.length = some n) (hgen : genTag old.gen ≠ genTag new.gen)
    (h : Torn old new m n slot) :
    decode (slotBytes slot) b = none ∨ decode (slotBytes slot) b = some (decodedOf old m) ∨
      decode (slotBytes slot) b = some (decodedOf new n) := by
  obtain ⟨-, hmpos, -⟩ := sectorsFor_eq hm
  cases slot with
  | nil =>
      refine .inl ?_
      rw [decode, if_pos (by decide)]
  | cons s₀ rest =>
      have h0 : (s₀ :: rest)[0]? = some s₀ := rfl
      -- the record whose sector 0 is there decides which sectors can follow
      rcases h 0 s₀ h0 with hold | hnew | ⟨hle, -⟩
      · obtain ⟨-, rfl⟩ := encodeSectors_getElem?.mp hold
        have hor := decode_of_first (b := b) hm h0 fun i s hi hs => by
          rcases h i s hs with ho | hw | ⟨hle, -⟩
          · exact .inl (encodeSectors_getElem?.mp ho).2
          · rw [(encodeSectors_getElem?.mp hw).2]
            exact .inr (recordSector_gate hgen.symm i)
          · exact absurd hi (Nat.not_lt.mpr hle)
        rcases hor with hnone | hsome
        · exact .inl hnone
        · exact .inr (.inl hsome)
      · obtain ⟨-, rfl⟩ := encodeSectors_getElem?.mp hnew
        have hor := decode_of_first (b := b) hn h0 fun i s _ hs => by
          rcases h i s hs with ho | hw | ⟨-, hfail⟩
          · rw [(encodeSectors_getElem?.mp ho).2]
            exact .inr (recordSector_gate hgen i)
          · exact .inl (encodeSectors_getElem?.mp hw).2
          · exact .inr hfail
        rcases hor with hnone | hsome
        · exact .inl hnone
        · exact .inr (.inr hsome)
      · exact absurd hmpos (Nat.not_lt.mpr hle)

theorem recover_none_left (d : DecodedHead × List UInt8) : recover none (some d) = some d := rfl

theorem recover_none_right (d : DecodedHead × List UInt8) : recover (some d) none = some d := rfl

theorem recover_some_or (d e : DecodedHead × List UInt8) :
    recover (some d) (some e) = some d ∨ recover (some d) (some e) = some e := by
  by_cases h : d.1.gen < e.1.gen
  · exact .inr (by simp only [recover, Option.map_some, pickNewer, h, decide_true])
  · exact .inl (by simp only [recover, Option.map_some, pickNewer, h, decide_false])

theorem mem_of_recover {d e x : DecodedHead × List UInt8} (h : recover (some d) (some e) = some x) :
    x = d ∨ x = e := by
  rcases recover_some_or d e with hr | hr
  · exact .inl (Option.some.inj (h.symm.trans hr))
  · exact .inr (Option.some.inj (h.symm.trans hr))

/-- Old and new sectors mixed decode to nothing, to the old record or to the new
one.  With a valid head in the other slot the reader then finds one of the three
records whole; and where the other slot held the prior head, it finds the prior
head or the new one. -/
theorem torn_commit (hm : sectorsFor old.sig.length = some m)
    (hn : sectorsFor new.sig.length = some n) (hgen : genTag old.gen ≠ genTag new.gen)
    (h : Torn old new m n slot) :
    (decode (slotBytes slot) b = none ∨ decode (slotBytes slot) b = some (decodedOf old m) ∨
      decode (slotBytes slot) b = some (decodedOf new n)) ∧
    ∀ (other : List UInt8) (prior : DecodedHead × List UInt8), decode other b = some prior →
      (∀ d, recover (decode (slotBytes slot) b) (decode other b) = some d ∨
          recover (decode other b) (decode (slotBytes slot) b) = some d →
        d = prior ∨ d = decodedOf old m ∨ d = decodedOf new n) ∧
      (recover (some (decodedOf old m)) (decode other b) = some prior →
        recover (decode (slotBytes slot) b) (decode other b) = some prior ∨
          recover (decode (slotBytes slot) b) (decode other b) = some (decodedOf new n)) ∧
      (recover (decode other b) (some (decodedOf old m)) = some prior →
        recover (decode other b) (decode (slotBytes slot) b) = some prior ∨
          recover (decode other b) (decode (slotBytes slot) b) = some (decodedOf new n)) := by
  have hslot := decode_mixture (b := b) hm hn hgen h
  refine ⟨hslot, ?_⟩
  intro other prior hother
  rw [hother]
  rcases hslot with hs | hs | hs
  · rw [hs, recover_none_left, recover_none_right]
    refine ⟨?_, fun _ => .inl rfl, fun _ => .inl rfl⟩
    rintro d (hd | hd) <;> exact .inl (Option.some.inj hd).symm
  · rw [hs]
    refine ⟨?_, .inl, .inl⟩
    rintro d (hd | hd)
    · exact (mem_of_recover hd).symm.imp_right .inl
    · exact (mem_of_recover hd).imp_right .inl
  · rw [hs]
    refine ⟨?_, fun _ => (recover_some_or _ _).symm, fun _ => recover_some_or _ _⟩
    rintro d (hd | hd)
    · exact (mem_of_recover hd).symm.imp_right .inr
    · exact (mem_of_recover hd).imp_right .inr

end torn

/-- A record over the two sectors of its slot. -/
theorem decode_pair {r : HeadRecord} (h : r.sig.length = 407) :
    decode (slotBytes (encodeSectors r 2)) 2614 = some (decodedOf r 2) := by
  refine decode_sectors (by rw [h]; decide) ?_ (by rw [h]; decide) fun i hi => ?_
  · rw [length_slotBytes, encodeSectors, List.length_map, List.length_range]
    decide
  · exact sectorAt_slotBytes (encodeSectors_getElem?.mpr ⟨hi, rfl⟩)

/-- Generation 3 torn over generation 1, with generation 2 in the other slot. -/
theorem torn_three_over_one :
    recover (decode (slotBytes (tornSlot oldHead { newHead with gen := 3 })) 2614)
        (decode (slotBytes (encodeSectors { oldHead with gen := 2 } 2)) 2614) =
      some (decodedOf { oldHead with gen := 2 } 2) ∨
    recover (decode (slotBytes (tornSlot oldHead { newHead with gen := 3 })) 2614)
        (decode (slotBytes (encodeSectors { oldHead with gen := 2 } 2)) 2614) =
      some (decodedOf { newHead with gen := 3 } 2) := by
  have hprior := decode_pair (r := { oldHead with gen := 2 }) length_sig.1
  have hpick : recover (some (decodedOf oldHead 2))
      (decode (slotBytes (encodeSectors { oldHead with gen := 2 } 2)) 2614) =
        some (decodedOf { oldHead with gen := 2 } 2) := by
    rw [hprior]
    rfl
  exact ((@torn_commit oldHead { newHead with gen := 3 } 2 2 2614 _
    (by rw [length_sig.1]; decide) (by rw [length_sig.2]; decide) (by decide)
    (torn_tornSlot _ _)).2 _ _ hprior).2.1 hpick

/-! ## Generations 2^32 apart -/

/-- A signature that fills the first sector exactly, and what is left of it. -/
theorem payloadAt_split {r : HeadRecord} {x y : List UInt8} (hsig : r.sig = x ++ y)
    (hx : BLOB_FIXED + x.length = SEC_PAYLOAD) :
    (payloadAt (blob r) 0).val = (blobFields r).flatten ++ x ∧
      payloadAt (blob r) 1 = fixed (y ++ le 8 (fnv1a64 (blobBody r)).toNat) 0 SEC_PAYLOAD := by
  have hlen : ((blobFields r).flatten ++ x).length = SEC_PAYLOAD := by
    rw [List.length_append, length_blobFields, hx]
  have hblob : blob r = ((blobFields r).flatten ++ x) ++ (y ++ le 8 (fnv1a64 (blobBody r)).toNat) := by
    have hbody : blobBody r = ((blobFields r).flatten ++ x) ++ y := by
      rw [blobBody, hsig, ← List.append_assoc]
    rw [blob]
    nth_rewrite 1 [hbody]
    rw [List.append_assoc]
  constructor
  · rw [payloadAt, fixed_val (by rw [hblob, List.length_append, hlen]; omega), hblob, Nat.zero_mul]
    exact slice_here _ _ hlen
  · rw [payloadAt, hblob, Nat.one_mul]
    exact fixed_skip _ _ hlen

/-- The new record under the old signature, which was never written. -/
def mixedHead : HeadRecord := { newHead with sig := oldHead.sig }

theorem length_sig_head : BLOB_FIXED + (List.replicate 406 (0 : UInt8)).length = SEC_PAYLOAD := by
  rw [List.length_replicate]
  rfl

theorem sector_zero_shared : recordSector mixedHead 0 = recordSector newHead 0 := by
  have hmix := (payloadAt_split (r := mixedHead) (y := [1]) rfl length_sig_head).1
  have hnew := (payloadAt_split (r := newHead) (y := [2]) rfl length_sig_head).1
  have hfields : blobFields mixedHead = blobFields newHead := by
    rw [blobFields, blobFields, mixedHead, length_sig.1, length_sig.2]
  have hpay : payloadAt (blob mixedHead) 0 = payloadAt (blob newHead) 0 :=
    Subtype.ext (by rw [hmix, hnew, hfields])
  rw [recordSector, recordSector, hpay, mixedHead]

theorem sector_one_shared : recordSector mixedHead 1 = recordSector oldHead 1 := by
  have hspan : fnv1a64 (blobBody mixedHead) = fnv1a64 (blobBody oldHead) := by
    decide +kernel
  have hmix := (payloadAt_split (r := mixedHead) (y := [1]) rfl length_sig_head).2
  have hold := (payloadAt_split (r := oldHead) (y := [1]) rfl length_sig_head).2
  rw [hspan] at hmix
  rw [recordSector, recordSector, hmix, hold]
  rfl

/-- The slot decodes to it. -/
theorem torn_accepted : oldHead.gen ≠ newHead.gen ∧
    sectorsFor oldHead.sig.length = some 2 ∧ sectorsFor newHead.sig.length = some 2 ∧
    Torn oldHead newHead 2 2 (tornSlot oldHead newHead) ∧
    decode (slotBytes (tornSlot oldHead newHead)) 2614 = some (decodedOf mixedHead 2) ∧
    decodedOf mixedHead 2 ≠ decodedOf oldHead 2 ∧ decodedOf mixedHead 2 ≠ decodedOf newHead 2 := by
  have hsectors : sectorsFor 407 = some 2 := by decide
  have hmixed : mixedHead.sig.length = 407 := length_sig.1
  have hall : ∀ i < 2, sectorAt (slotBytes (tornSlot oldHead newHead)) i = (recordSector mixedHead i).val := by
    intro i hi
    rcases i with _ | _ | i
    · rw [sector_zero_shared]
      exact sectorAt_slotBytes rfl
    · rw [sector_one_shared]
      exact sectorAt_slotBytes rfl
    · omega
  refine ⟨by decide, by rw [length_sig.1, hsectors], by rw [length_sig.2, hsectors],
    torn_tornSlot _ _, ?_, ?_, ?_⟩
  · refine decode_sectors (by rw [hmixed, hsectors]) ?_ (by rw [hmixed]; decide) hall
    rw [length_slotBytes]
    decide
  · intro he
    have hgen := congrArg (fun d => d.1.gen) he
    exact absurd hgen (by decide)
  · intro he
    have hblob := congrArg (fun d => (d.2.getD 504 0)) he
    exact absurd hblob (by decide +kernel)

end Yuva.Prov
