/-
# `Yuva.Store.Crash` — when a flush is all or nothing

`Committed disk s` says that the disk's superblock carries the store's
watermarks and that replaying each region takes all its committed frames, giving
the store's image.

`flush` issues the frames of the staged payloads, a barrier, the superblock and a
barrier, and stops at the first request that fails: what it issued is a prefix of
`fullTrace` (`flush_trace`).  The frames go to sectors no committed frame is in
(`frameWrites_fresh`), so

    before the superblock is issued   every committed sector is untouched
    after it                          the barrier settled every frame; the
                                      superblock is the old one or the new one

and a mount of a crash image gives the old streams, whatever stale frames earlier
flushes left behind, or takes the staged frames as long as their numbers rise.  The
counter of a region is a 64-bit word that wraps, and a frame past the wrap ends the
replay for good.  `Rises` says that no payload with bytes in it gets such a number,
which is exactly when a flush is all or nothing (`flush_crash_atomic_iff`).
-/
import Yuva.Store.Engine

namespace Yuva.Store

open Yuva.Bytes Yuva.Volatile

/-! ## The requests a flush issues -/

/-- The writes of one region's staged payloads. -/
def frameWrites (r : Region) : List (List UInt8) → Nat → BitVec 64 → List (Req Sector)
  | [], _, _ => []
  | payload :: rest, idx, seq =>
      match recordSector r (idx * SECTOR_SIZE), recordFrameEncode (regionTag r) seq payload with
      | some sector, some sec => .write sector sec :: frameWrites r rest (idx + 1) (seq + 1)
      | _, _ => []

namespace VirtioBlkStore

/-- `writeFrames` issues a prefix of `frameWrites`; where it succeeds, all of it,
and the disk shows it. -/
theorem writeFrames_trace (r : Region) : ∀ (ps : List (List UInt8)) (idx : Nat) (q : BitVec 64)
    (d : Dev Sector), ∃ res q' d' tr, writeFrames r ps idx q d = (res, q', d') ∧ Dev.Issued d d' tr ∧
      tr <+: frameWrites r ps idx q ∧
      (res = .ok () → tr = frameWrites r ps idx q ∧ d'.disk = settle d.disk tr ∧
        q' = q + BitVec.ofNat 64 ps.length)
  | [], idx, q, d =>
      ⟨.ok (), q, d, [], rfl, ⟨by simp, rfl⟩, by simp, fun _ => ⟨rfl, rfl, by simp⟩⟩
  | p :: ps, idx, q, d => by
      simp only [writeFrames, frameWrites]
      cases hs : recordSector r (idx * SECTOR_SIZE) with
      | none => exact ⟨_, _, _, [], rfl, ⟨by simp, rfl⟩, by simp, fun h => by cases h⟩
      | some sector =>
          cases he : recordFrameEncode (regionTag r) q p with
          | none => exact ⟨_, _, _, [], rfl, ⟨by simp, rfl⟩, by simp, fun h => by cases h⟩
          | some sec =>
              obtain ⟨d₁, hiss₁, hw⟩ := d.write_cases sector sec
              rcases hw with ⟨hw, hdisk₁⟩ | ⟨hw, -⟩
              · obtain ⟨res, q', d', tr, hrec, hiss, hpre, hres⟩ :=
                  writeFrames_trace r ps (idx + 1) (q + 1) d₁
                refine ⟨res, q', d', .write sector sec :: tr, by simp only [hw, hrec],
                  hiss₁.trans hiss, (List.prefix_cons_inj _).mpr hpre, fun h => ?_⟩
                obtain ⟨htr, hdisk, hq⟩ := hres h
                refine ⟨by rw [htr], by rw [hdisk, settle, hdisk₁], ?_⟩
                rw [hq, List.length_cons, BitVec.ofNat_add,
                  BitVec.add_comm (BitVec.ofNat 64 ps.length), ← BitVec.add_assoc]
                rfl
              · exact ⟨.error .io, q, d₁, [.write sector sec], by simp only [hw], hiss₁, by simp,
                  fun h => by cases h⟩

/-- The writes of the listed regions. -/
def stagedWrites (s : VirtioBlkStore) (rs : List Region) : List (Req Sector) :=
  rs.flatMap fun r => frameWrites r (s.staged r) (s.recordCount r).toNat (s.seq r)

/-- Phase 1 moves nothing but sequence numbers. -/
structure SeqOnly (s s' : VirtioBlkStore) : Prop where
  gen : s'.gen = s.gen
  logHead : s'.logHead = s.logHead
  recordCount : s'.recordCount = s.recordCount
  staged : s'.staged = s.staged
  image : s'.image = s.image

theorem writeStaged_trace : ∀ (rs : List Region) (s : VirtioBlkStore) (d : Dev Sector), rs.Nodup →
    ∃ res s' d' tr, s.writeStaged rs d = (res, s', d') ∧ SeqOnly s s' ∧ Dev.Issued d d' tr ∧
      tr <+: s.stagedWrites rs ∧
      (res = .ok () → tr = s.stagedWrites rs ∧ d'.disk = settle d.disk tr)
  | [], s, d, _ =>
      ⟨.ok (), s, d, [], rfl, ⟨rfl, rfl, rfl, rfl, rfl⟩, ⟨by simp, rfl⟩, by simp,
        fun _ => ⟨rfl, rfl⟩⟩
  | r :: rs, s, d, hnd => by
      obtain ⟨hr, hnd'⟩ := List.nodup_cons.mp hnd
      obtain ⟨res, q, d₁, tr, hrun, hiss, hpre, hres⟩ :=
        writeFrames_trace r (s.staged r) (s.recordCount r).toNat (s.seq r) d
      cases res with
      | error e =>
          refine ⟨.error e, { s with seq := Function.update s.seq r q }, d₁, tr, ?_,
            ⟨rfl, rfl, rfl, rfl, rfl⟩, hiss, ?_, fun h => by cases h⟩
          · simp only [writeStaged, hrun]
          · exact hpre.trans (List.prefix_append _ _)
      | ok u =>
          obtain ⟨rfl, hdisk, -⟩ := hres rfl
          obtain ⟨res', s', d', tr', hrest, hseq, hiss', hpre', hres'⟩ :=
            writeStaged_trace rs { s with seq := Function.update s.seq r q } d₁ hnd'
          -- the sequence number of `r` plays no part in the other regions
          have hsame : stagedWrites { s with seq := Function.update s.seq r q } rs =
              s.stagedWrites rs := by
            refine List.flatMap_congr fun r' hr' => ?_
            have hne : r' ≠ r := by
              rintro rfl
              exact hr hr'
            simp [Function.update_of_ne hne]
          rw [hsame] at hpre' hres'
          refine ⟨res', s', d', _, ?_, ⟨hseq.gen, hseq.logHead, hseq.recordCount, hseq.staged,
            hseq.image⟩, hiss.trans hiss', ?_, ?_⟩
          · simp only [writeStaged, hrun]
            exact hrest
          · exact (List.prefix_append_right_inj _).mpr hpre'
          · intro h
            obtain ⟨htr', hdisk'⟩ := hres' h
            exact ⟨by rw [htr']; rfl, by rw [hdisk', hdisk, settle_append]⟩

/-- The write of a superblock fails, or stays behind a barrier that fails, or is done. -/
theorem writeSuperblock_cases (s : VirtioBlkStore) (gen : BitVec 64) (d : Dev Sector) :
    ∃ d',
      (s.writeSuperblock gen d = (.error .io, s, d') ∧ d'.disk = d.disk ∧
        Dev.Issued d d' [.write SB_SECTOR (superblockEncode gen s.logHead s.recordCount)]) ∨
      (s.writeSuperblock gen d = (.error .io, s, d') ∧
        d'.disk = Function.update d.disk SB_SECTOR (superblockEncode gen s.logHead s.recordCount) ∧
        Dev.Issued d d' [.write SB_SECTOR (superblockEncode gen s.logHead s.recordCount)]) ∨
      (s.writeSuperblock gen d = (.ok (), { s with gen := gen }, d') ∧
        d'.disk = Function.update d.disk SB_SECTOR (superblockEncode gen s.logHead s.recordCount) ∧
        Dev.Issued d d' [.write SB_SECTOR (superblockEncode gen s.logHead s.recordCount), .flush]) := by
  obtain ⟨d₁, hiss, ⟨hw, hdisk⟩ | ⟨hw, hdisk⟩⟩ :=
    d.write_cases SB_SECTOR (superblockEncode gen s.logHead s.recordCount)
  · obtain ⟨d₂, hdisk₂, ⟨hf, hiss₂⟩ | ⟨hf, hiss₂⟩⟩ := d₁.flush_cases
    · refine ⟨d₂, .inr (.inr ⟨?_, hdisk₂.trans hdisk, hiss.trans hiss₂⟩)⟩
      simp only [writeSuperblock, hw, hf]
    · refine ⟨d₂, .inr (.inl ⟨?_, hdisk₂.trans hdisk, hiss.trans hiss₂⟩)⟩
      simp only [writeSuperblock, hw, hf]
  · refine ⟨d₁, .inl ⟨?_, hdisk, hiss⟩⟩
    simp only [writeSuperblock, hw]

/-- The superblock a flush writes. -/
def nextSuperblock (s : VirtioBlkStore) : Sector :=
  superblockEncode (s.gen + 1) s.foldStaged.logHead s.foldStaged.recordCount

/-- Everything a flush asks of the device when nothing fails. -/
def fullTrace (s : VirtioBlkStore) : List (Req Sector) :=
  s.stagedWrites regions ++ [.flush, .write SB_SECTOR s.nextSuperblock, .flush]

/-- A flush issues a prefix of `fullTrace`; where it succeeds, all of it, and the
store is the folded one. -/
theorem flush_trace (s : VirtioBlkStore) (d : Dev Sector) :
    ∃ res s' d' tr, s.flush d = (res, s', d') ∧ Dev.Issued d d' tr ∧ tr <+: s.fullTrace ∧
      (res = .ok () → tr = s.fullTrace ∧ d'.disk = settle d.disk s.fullTrace) := by
  obtain ⟨res, s₁, d₁, tr, hrun, hseq, hiss, hpre, hres⟩ :=
    writeStaged_trace regions s d (by decide)
  cases res with
  | error e =>
      refine ⟨.error e, s₁, d₁, tr, by simp only [flush, hrun], hiss, ?_, fun h => by cases h⟩
      exact hpre.trans (List.prefix_append _ _)
  | ok u =>
      obtain ⟨rfl, hdisk⟩ := hres rfl
      have hsb : superblockEncode (s₁.gen + 1) s₁.foldStaged.logHead s₁.foldStaged.recordCount =
          s.nextSuperblock := by
        simp only [nextSuperblock, foldStaged, hseq.gen, hseq.logHead, hseq.recordCount, hseq.staged]
      obtain ⟨d₂, hdisk₂, hflush⟩ := d₁.flush_cases
      rcases hflush with ⟨hflush, hiss₂⟩ | ⟨hflush, hiss₂⟩
      · have hrest : s.flush d = s₁.foldStaged.writeSuperblock (s₁.gen + 1) d₂ := by
          simp only [flush, hrun, hflush]
        obtain ⟨d₃, hend⟩ := s₁.foldStaged.writeSuperblock_cases (s₁.gen + 1) d₂
        rw [hsb, ← hrest] at hend
        rcases hend with ⟨hend, -, hiss₃⟩ | ⟨hend, -, hiss₃⟩ | ⟨hend, hdisk₃, hiss₃⟩
        · exact ⟨_, _, d₃, _, hend, hiss.trans (hiss₂.trans hiss₃),
            (List.prefix_append_right_inj _).mpr ⟨[.flush], rfl⟩, fun h => nomatch h⟩
        · exact ⟨_, _, d₃, _, hend, hiss.trans (hiss₂.trans hiss₃),
            (List.prefix_append_right_inj _).mpr ⟨[.flush], rfl⟩, fun h => nomatch h⟩
        · refine ⟨_, _, d₃, s.fullTrace, hend, hiss.trans (hiss₂.trans hiss₃), List.prefix_refl _, fun _ => ⟨rfl, ?_⟩⟩
          rw [fullTrace, settle_append, hdisk₃, hdisk₂, hdisk]
          rfl
      · refine ⟨.error .io, s₁, d₂, _, ?_, hiss.trans hiss₂, ?_, fun h => by cases h⟩
        · simp only [flush, hrun, hflush]
        · rw [List.append_nil]
          exact List.prefix_append _ _

end VirtioBlkStore

/-! ## Where the frames go, and what a scan finds there -/

/-- A write of `frameWrites` is the frame of one of the payloads, in its place. -/
theorem mem_frameWrites {r : Region} {x : Nat} {sec : Sector} : ∀ {ps : List (List UInt8)}
    {idx : Nat} {q : BitVec 64}, Req.write x sec ∈ frameWrites r ps idx q →
      ∃ j p, ps[j]? = some p ∧ recordSector r ((idx + j) * SECTOR_SIZE) = some x ∧
        recordFrameEncode (regionTag r) (q + BitVec.ofNat 64 j) p = some sec
  | [], _, _, h => absurd h List.not_mem_nil
  | p :: ps, idx, q, h => by
      simp only [frameWrites] at h
      split at h
      · rename_i sector sec' hs he
        rcases List.mem_cons.mp h with heq | hmem
        · cases heq
          exact ⟨0, p, rfl, hs, by simpa using he⟩
        · obtain ⟨j, p', hp', hs', he'⟩ := mem_frameWrites hmem
          refine ⟨j + 1, p', hp', ?_, ?_⟩
          · rw [show idx + (j + 1) = idx + 1 + j by omega]
            exact hs'
          · rw [BitVec.ofNat_add, BitVec.add_comm (BitVec.ofNat 64 j), ← BitVec.add_assoc]
            exact he'
      · exact absurd h List.not_mem_nil

/-- Payloads that fit their frames and their extent are all written. -/
theorem frameWrites_mem {r : Region} : ∀ {ps : List (List UInt8)} {idx : Nat} {q : BitVec 64},
    idx + ps.length ≤ (regionExtent r).2 → (∀ p ∈ ps, p.length ≤ MAX_PAYLOAD) →
      ∀ {j : Nat} {p : List UInt8}, ps[j]? = some p → ∃ x sec,
        recordSector r ((idx + j) * SECTOR_SIZE) = some x ∧
        recordFrameEncode (regionTag r) (q + BitVec.ofNat 64 j) p = some sec ∧
        Req.write x sec ∈ frameWrites r ps idx q
  | [], _, _, _, _, _, _, h => by simp at h
  | p :: ps, idx, q, hext, hmax, j, p', h => by
      have hs : recordSector r (idx * SECTOR_SIZE) = some ((regionExtent r).1 + idx) :=
        recordSector_eq.mpr ⟨by simp only [List.length_cons] at hext; omega, rfl⟩
      obtain ⟨sec, he⟩ := recordFrameEncode_of_le (regionTag r) q
        (hmax p List.mem_cons_self)
      cases j with
      | zero =>
          cases h
          refine ⟨_, sec, hs, by simpa using he, ?_⟩
          simp only [frameWrites, hs, he]
          exact List.mem_cons_self
      | succ j =>
          have hext' : idx + 1 + ps.length ≤ (regionExtent r).2 := by
            simp only [List.length_cons] at hext
            omega
          obtain ⟨x, sec', hx, he', hmem⟩ := frameWrites_mem (q := q + 1) hext'
            (fun p' hp' => hmax p' (List.mem_cons_of_mem _ hp')) (show ps[j]? = some p' from h)
          refine ⟨x, sec', ?_, ?_, ?_⟩
          · rw [show idx + (j + 1) = idx + 1 + j by omega]
            exact hx
          · rw [BitVec.ofNat_add, BitVec.add_comm (BitVec.ofNat 64 j), ← BitVec.add_assoc]
            exact he'
          · simp only [frameWrites, hs, he]
            exact List.mem_cons_of_mem _ hmem

/-- The frames of payloads `ps`, in their places from `idx` on. -/
def Framed (disk : Disk Sector) (r : Region) (ps : List (List UInt8)) (idx : Nat)
    (q : BitVec 64) : Prop :=
  ∀ j p, ps[j]? = some p → ∃ x sec, recordSector r ((idx + j) * SECTOR_SIZE) = some x ∧
    recordFrameEncode (regionTag r) (q + BitVec.ofNat 64 j) p = some sec ∧ disk x = sec

theorem Framed.tail {disk : Disk Sector} {r : Region} {p : List UInt8} {ps : List (List UInt8)} {idx : Nat}
    {q : BitVec 64} (h : Framed disk r (p :: ps) idx q) : Framed disk r ps (idx + 1) (q + 1) := by
  intro j p' hp'
  obtain ⟨x, sec, hx, he, hdisk⟩ := h (j + 1) p' hp'
  refine ⟨x, sec, ?_, ?_, hdisk⟩
  · rw [show idx + 1 + j = idx + (j + 1) by omega]
    exact hx
  · rw [BitVec.ofNat_add, BitVec.add_comm (BitVec.ofNat 64 j), ← BitVec.add_assoc] at he
    exact he

/-- What the first of the frames decodes to. -/
theorem Framed.head {disk : Disk Sector} {r : Region} {p : List UInt8} {ps : List (List UInt8)} {idx : Nat}
    {q : BitVec 64} (h : Framed disk r (p :: ps) idx q) : ∃ x hd,
      recordSector r (idx * SECTOR_SIZE) = some x ∧
      recordFrameDecode (disk x) = some (hd, FRAME_HEADER_LEN) ∧ hd.seq = q ∧
      slice (disk x).val FRAME_HEADER_LEN hd.len.toNat = p := by
  obtain ⟨x, sec, hx, he, hdisk⟩ := h 0 p rfl
  rw [BitVec.add_zero] at he
  obtain ⟨hd, hdec, hseq, hpay⟩ := recordFrameDecode_encode he
  subst hdisk
  exact ⟨x, hd, hx, hdec, hseq, hpay⟩

/-- Every sequence number up to `last` is below `q`. -/
def Below (last : Option (BitVec 64)) (q : BitVec 64) : Prop :=
  ∀ p, last = some p → p.toNat < q.toNat

theorem staleSeq_of_below {last : Option (BitVec 64)} {q : BitVec 64} (h : Below last q) :
    staleSeq last q = false := by
  cases last with
  | none => rfl
  | some p =>
      have := h p rfl
      simp only [staleSeq, decide_eq_false_iff_not, BitVec.not_le]
      exact this

/-- How many frames, numbered from `q` on, a scan takes after `last`: the numbers rise until they wrap. -/
def rising (last : Option (BitVec 64)) (q : BitVec 64) : Nat := if staleSeq last q then 0 else 2 ^ 64 - q.toNat

theorem below_iff {last : Option (BitVec 64)} {q : BitVec 64} : Below last q ↔ staleSeq last q = false := by
  refine ⟨staleSeq_of_below, fun h p hp => ?_⟩
  subst hp
  rw [staleSeq, decide_eq_false_iff_not, BitVec.not_le] at h
  exact h

theorem rising_of_below {last : Option (BitVec 64)} {q : BitVec 64} (h : Below last q) :
    rising last q = 2 ^ 64 - q.toNat := by
  rw [rising, staleSeq_of_below h]
  rfl

theorem lt_rising {last : Option (BitVec 64)} {q : BitVec 64} {j : Nat} :
    j < rising last q ↔ Below last q ∧ q.toNat + j < 2 ^ 64 := by
  rw [below_iff, rising]
  cases staleSeq last q with
  | true => simp
  | false => simp; omega

/-- Each number rises above the one before it until the last is taken. -/
theorem rising_next (q : BitVec 64) : rising (some q) (q + 1) = 2 ^ 64 - q.toNat - 1 := by
  have hq := q.isLt
  by_cases hmax : q.toNat = 2 ^ 64 - 1
  · have hwrap : q = BitVec.allOnes 64 := BitVec.eq_of_toNat_eq (by rw [hmax, BitVec.toNat_allOnes])
    subst hwrap
    decide
  · have hnext : (q + 1).toNat = q.toNat + 1 := by
      rw [BitVec.toNat_add]
      exact Nat.mod_eq_of_lt (by simp; omega)
    have hbelow : Below (some q) (q + 1) := by
      rintro p hp
      cases hp
      omega
    rw [rising_of_below hbelow, hnext]
    omega

/-- A scan takes the frames of a run whose numbers rise. -/
theorem scan_rising {disk : Disk Sector} {r : Region} : ∀ {ps : List (List UInt8)} {idx : Nat}
    {q : BitVec 64} {last : Option (BitVec 64)}, Framed disk r ps idx q →
      (scan disk r ps.length idx last).frames = min ps.length (rising last q) ∧
        (scan disk r ps.length idx last).stream = (ps.take (rising last q)).flatten
  | [], _, _, _, _ => by simp [scan]
  | p :: ps, idx, q, last, hf => by
      obtain ⟨x, h, hx, hdec, rfl, hpay⟩ := hf.head
      cases hst : staleSeq last h.seq with
      | true => simp [scan, hx, hdec, hst, rising]
      | false =>
          obtain ⟨hframes, hstream⟩ := @scan_rising disk r ps (idx + 1) (h.seq + 1) (some h.seq) hf.tail
          have hlt := h.seq.isLt
          have htake : rising last h.seq = rising (some h.seq) (h.seq + 1) + 1 := by
            rw [rising_next, rising_of_below (below_iff.mpr hst)]
            omega
          rw [htake, List.length_cons, List.take_succ_cons, List.flatten_cons, ← hstream, Nat.add_min_add_right,
            ← hframes]
          simp only [scan, hx, hdec, hst, hpay, Bool.false_eq_true, if_false, and_self]

/-- It takes them all where the numbers do not wrap. -/
theorem scan_framed {disk : Disk Sector} {r : Region} {ps : List (List UInt8)} {idx : Nat} {q : BitVec 64}
    {last : Option (BitVec 64)} (hf : Framed disk r ps idx q) (hwrap : q.toNat + ps.length ≤ 2 ^ 64)
    (hlast : Below last q) : (scan disk r ps.length idx last).frames = ps.length ∧
      (scan disk r ps.length idx last).stream = ps.flatten := by
  obtain ⟨hframes, hstream⟩ := @scan_rising disk r ps idx q last hf
  have hall : ps.length ≤ rising last q := by
    rw [rising_of_below hlast]
    omega
  exact ⟨hframes.trans (Nat.min_eq_left hall), hstream.trans (by rw [List.take_of_length_le hall])⟩

/-- What is cut off a list of payloads is empty. -/
theorem flatten_take_eq_iff {ps : List (List UInt8)} {n : Nat} :
    (ps.take n).flatten = ps.flatten ↔ ∀ j p, ps[j]? = some p → p ≠ [] → j < n := by
  have hsplit : ps.flatten = (ps.take n).flatten ++ (ps.drop n).flatten := by
    rw [← List.flatten_append, List.take_append_drop]
  rw [hsplit, List.self_eq_append_right, List.flatten_eq_nil_iff]
  constructor
  · intro hnil j p hp hne
    by_contra hge
    refine hne (hnil p (List.mem_of_getElem? (i := j - n) ?_))
    rw [List.getElem?_drop, Nat.add_sub_cancel' (Nat.le_of_not_lt hge), hp]
  · intro h p hp
    obtain ⟨k, hk⟩ := List.getElem?_of_mem hp
    rw [List.getElem?_drop] at hk
    by_contra hne
    have hlt := h (n + k) p hk hne
    omega

namespace VirtioBlkStore

/-- The staged payloads of a region fit their frames and their extent. -/
def Fits (s : VirtioBlkStore) (r : Region) : Prop :=
  (s.recordCount r).toNat + (s.staged r).length ≤ (regionExtent r).2 ∧
    ∀ p ∈ s.staged r, p.length ≤ MAX_PAYLOAD

/-- The sector holds no superblock and no committed frame. -/
def Uncommitted (s : VirtioBlkStore) (x : Nat) : Prop :=
  x ≠ SB_SECTOR ∧ ∀ r i, i < (s.recordCount r).toNat →
    recordSector r (i * SECTOR_SIZE) ≠ some x

theorem mem_stagedWrites {s : VirtioBlkStore} {x : Nat} {sec : Sector}
    (h : Req.write x sec ∈ s.stagedWrites regions) : ∃ r j p, (s.staged r)[j]? = some p ∧
      recordSector r (((s.recordCount r).toNat + j) * SECTOR_SIZE) = some x ∧
      recordFrameEncode (regionTag r) (s.seq r + BitVec.ofNat 64 j) p = some sec := by
  obtain ⟨r, -, hmem⟩ := List.mem_flatMap.mp h
  obtain ⟨j, p, hp, hx, he⟩ := mem_frameWrites hmem
  exact ⟨r, j, p, hp, hx, he⟩

theorem stagedWrites_fresh {s : VirtioBlkStore} {x : Nat} {sec : Sector}
    (h : Req.write x sec ∈ s.stagedWrites regions) : s.Uncommitted x := by
  obtain ⟨r, j, p, -, hx, -⟩ := mem_stagedWrites h
  refine ⟨recordSector_ne_sb hx, fun r' i hi hx' => ?_⟩
  obtain ⟨rfl, hij⟩ := recordSector_inj hx hx'
  omega

theorem stagedWrites_unique {s : VirtioBlkStore} {x : Nat} {sec sec' : Sector}
    (h : Req.write x sec ∈ s.stagedWrites regions)
    (h' : Req.write x sec' ∈ s.stagedWrites regions) : sec' = sec := by
  obtain ⟨r, j, p, hp, hx, he⟩ := mem_stagedWrites h
  obtain ⟨r', j', p', hp', hx', he'⟩ := mem_stagedWrites h'
  obtain ⟨rfl, hij⟩ := recordSector_inj hx hx'
  have hj : j = j' := by omega
  subst hj
  rw [hp] at hp'
  cases hp'
  rw [he] at he'
  exact (Option.some.inj he').symm

/-- Once its writes are settled, every staged payload is framed in its place. -/
theorem framed_settle {s : VirtioBlkStore} {r : Region} (hfit : s.Fits r) (d : Disk Sector) :
    Framed (settle d (s.stagedWrites regions)) r (s.staged r) (s.recordCount r).toNat
      (s.seq r) := by
  intro j p hp
  obtain ⟨x, sec, hx, he, hmem⟩ := frameWrites_mem (q := s.seq r) hfit.1 hfit.2 hp
  have hmem' : Req.write x sec ∈ s.stagedWrites regions :=
    List.mem_flatMap.mpr ⟨r, mem_regions r, hmem⟩
  exact ⟨x, sec, hx, he, settle_written d _ hmem' fun _ h => stagedWrites_unique hmem' h⟩

/-- Two disks agree where a store has committed frames. -/
def SameFrames (s : VirtioBlkStore) (disk disk' : Disk Sector) : Prop :=
  ∀ x, x ≠ SB_SECTOR → ¬ s.Uncommitted x → disk' x = disk x

theorem SameFrames.scan_eq {s : VirtioBlkStore} {disk disk' : Disk Sector}
    (h : s.SameFrames disk disk') (r : Region) :
    scan disk' r (s.recordCount r).toNat 0 none = scan disk r (s.recordCount r).toNat 0 none := by
  refine scan_congr fun j x _ hj hx => h x (recordSector_ne_sb hx) fun hu => ?_
  exact hu.2 r j (by omega) hx

/-- The disk holds the committed part of the store. -/
structure Committed (disk : Disk Sector) (s : VirtioBlkStore) : Prop where
  superblock : superblockDecode (disk SB_SECTOR) =
    some ⟨SB_VERSION, s.gen, s.logHead, s.recordCount⟩
  frames : ∀ r, (scan disk r (s.recordCount r).toNat 0 none).frames = (s.recordCount r).toNat
  image : ∀ r, s.image r = (scan disk r (s.recordCount r).toNat 0 none).stream

/-- In every region the counter is above the last committed number, and no staged payload with bytes
in it goes under a number past the wrap. -/
def Rises (disk : Disk Sector) (s : VirtioBlkStore) : Prop :=
  ∀ r j p, (s.staged r)[j]? = some p → p ≠ [] →
    Below (scan disk r (s.recordCount r).toNat 0 none).last (s.seq r) ∧ (s.seq r).toNat + j < 2 ^ 64

/-- The record count after the fold. -/
theorem toNat_folded_count {s : VirtioBlkStore} {r : Region} (hfit : s.Fits r) :
    (s.foldStaged.recordCount r).toNat = (s.recordCount r).toNat + (s.staged r).length := by
  have hext : (regionExtent r).2 < 2 ^ 64 := by cases r <;> decide
  have := hfit.1
  simp only [foldStaged, BitVec.toNat_add, BitVec.toNat_ofNat]
  omega

/-- What a replay of the new count finds: the committed frames, then the staged
ones whose numbers rise. -/
theorem scan_folded {s : VirtioBlkStore} {r : Region} (hfit : s.Fits r) {disk disk' : Disk Sector}
    (hsame : s.SameFrames disk disk')
    (hframes : (scan disk r (s.recordCount r).toNat 0 none).frames = (s.recordCount r).toNat)
    (hframed : Framed disk' r (s.staged r) (s.recordCount r).toNat (s.seq r)) :
    (scan disk' r (s.foldStaged.recordCount r).toNat 0 none).stream =
      (scan disk r (s.recordCount r).toNat 0 none).stream ++
        ((s.staged r).take (rising (scan disk r (s.recordCount r).toNat 0 none).last (s.seq r))).flatten := by
  have hold := hsame.scan_eq r
  rw [toNat_folded_count hfit, scan_add _ (by rw [hold]; exact hframes), hold, Nat.zero_add]
  rw [(scan_rising hframed).2]

end VirtioBlkStore

open VirtioBlkStore

/-- Stage a list of appends, whatever each answers. -/
def appendAll (s : VirtioBlkStore) (apps : List (Region × List UInt8)) : VirtioBlkStore :=
  apps.foldl (fun s a => (s.append a.1 a.2).2) s

/-- What appends leave alone, and what they keep. -/
structure Staging (s s' : VirtioBlkStore) : Prop where
  gen : s'.gen = s.gen
  logHead : s'.logHead = s.logHead
  recordCount : s'.recordCount = s.recordCount
  seq : s'.seq = s.seq
  image : s'.image = s.image
  fits : (∀ r, s.Fits r) → ∀ r, s'.Fits r

theorem Staging.refl (s : VirtioBlkStore) : Staging s s := ⟨rfl, rfl, rfl, rfl, rfl, id⟩

theorem Staging.trans {s s' s'' : VirtioBlkStore} (h : Staging s s') (h' : Staging s' s'') :
    Staging s s'' :=
  ⟨h'.gen.trans h.gen, h'.logHead.trans h.logHead, h'.recordCount.trans h.recordCount,
    h'.seq.trans h.seq, h'.image.trans h.image, fun hf => h'.fits (h.fits hf)⟩

theorem append_staging (s : VirtioBlkStore) (r : Region) (bytes : List UInt8) :
    Staging s (s.append r bytes).2 := by
  simp only [append]
  split
  · exact .refl s
  · split
    · exact .refl s
    · rename_i hlen hext
      refine ⟨rfl, rfl, rfl, rfl, rfl, fun hfit r' => ?_⟩
      by_cases hr : r' = r
      · subst hr
        refine ⟨?_, fun p hp => ?_⟩
        · simp only [Function.update_self, List.length_append, List.length_singleton]
          omega
        · simp only [Function.update_self, List.mem_append, List.mem_singleton] at hp
          rcases hp with hp | rfl
          · exact (hfit r').2 p hp
          · exact Nat.le_of_not_gt hlen
      · simp only [Fits, Function.update_of_ne hr]
        exact hfit r'

theorem appendAll_staging : ∀ (apps : List (Region × List UInt8)) (s : VirtioBlkStore),
    Staging s (appendAll s apps)
  | [], s => .refl s
  | a :: apps, s => (append_staging s a.1 a.2).trans (appendAll_staging apps _)

theorem writeFrames_healthy {r : Region} : ∀ {ps : List (List UInt8)} {idx : Nat} {q : BitVec 64}
    {d : Dev Sector}, (∀ k, d.ok k = true) → idx + ps.length ≤ (regionExtent r).2 →
      (∀ p ∈ ps, p.length ≤ MAX_PAYLOAD) → (writeFrames r ps idx q d).1 = .ok ()
  | [], _, _, _, _, _, _ => rfl
  | p :: ps, idx, q, d, hok, hext, hmax => by
      rw [List.length_cons] at hext
      have hs : recordSector r (idx * SECTOR_SIZE) = some ((regionExtent r).1 + idx) :=
        recordSector_eq.mpr ⟨by omega, rfl⟩
      obtain ⟨sec, he⟩ := recordFrameEncode_of_le (regionTag r) q
        (hmax p List.mem_cons_self)
      have hw : (d.write ((regionExtent r).1 + idx) sec).1 = true := hok _
      simp only [writeFrames, hs, he]
      rw [show d.write ((regionExtent r).1 + idx) sec =
        (true, (d.write ((regionExtent r).1 + idx) sec).2) from Prod.ext hw rfl]
      exact writeFrames_healthy hok (by omega) fun p' hp' => hmax p' (List.mem_cons_of_mem _ hp')

theorem writeStaged_healthy : ∀ (rs : List Region) {s : VirtioBlkStore} {d : Dev Sector},
    (∀ k, d.ok k = true) → (∀ r, s.Fits r) → (s.writeStaged rs d).1 = .ok ()
  | [], _, _, _, _ => rfl
  | r :: rs, s, d, hok, hfit => by
      obtain ⟨res, q, d', tr, hrun, hiss, -, -⟩ :=
        writeFrames_trace r (s.staged r) (s.recordCount r).toNat (s.seq r) d
      have hres := writeFrames_healthy (q := s.seq r) hok (hfit r).1 (hfit r).2
      rw [hrun] at hres
      cases hres
      simp only [writeStaged, hrun]
      exact writeStaged_healthy rs (fun k => by rw [hiss.ok]; exact hok k) hfit

/-- A flush whose frames fit succeeds on a device that never fails. -/
theorem flush_healthy {s : VirtioBlkStore} {d : Dev Sector} (hok : ∀ k, d.ok k = true)
    (hfit : ∀ r, s.Fits r) : ∃ s' d', s.flush d = (.ok (), s', d') := by
  obtain ⟨res, s₁, d₁, tr, hrun, -, hiss, -⟩ := writeStaged_trace regions s d (by decide)
  have hres := writeStaged_healthy regions hok hfit
  rw [hrun] at hres
  cases hres
  have hok' : ∀ k, d₁.ok k = true := fun k => by rw [hiss.ok]; exact hok k
  simp only [flush, hrun, Dev.flush, writeSuperblock, Dev.write, hok']
  exact ⟨_, _, rfl⟩

/-- A mount of `img` gives the streams and the generation of `s`. -/
def MountsAs (img : Disk Sector) (gen : BitVec 64) (image : Region → List UInt8) : Prop :=
  ∃ s, (mount (Dev.healthy img)).1 = .ok s ∧ s.gen = gen ∧ s.image = image

/-- While committed sectors and the superblock are untouched, a mount gives the
committed store. -/
theorem mountsAs_committed {disk img : Disk Sector} {s : VirtioBlkStore} (hc : Committed disk s)
    (hsb : img SB_SECTOR = disk SB_SECTOR) (hsame : s.SameFrames disk img) :
    MountsAs img s.gen s.image := by
  have hdec : superblockDecode (img SB_SECTOR) =
      some ⟨SB_VERSION, s.gen, s.logHead, s.recordCount⟩ := by rw [hsb, hc.superblock]
  refine ⟨_, mount_healthy hdec, rfl, funext fun r => ?_⟩
  rw [hc.image r, ← hsame.scan_eq r]
  rfl

/-- Once the new superblock is there, and the staged frames are, a mount gives the next
generation, and of the staged payloads those whose numbers rise. -/
theorem mountsAs_folded {disk img : Disk Sector} {s : VirtioBlkStore} (hc : Committed disk s)
    (hfit : ∀ r, s.Fits r) (hsb : img SB_SECTOR = s.nextSuperblock) (hsame : s.SameFrames disk img)
    (hframed : ∀ r, Framed img r (s.staged r) (s.recordCount r).toNat (s.seq r)) {gen : BitVec 64}
    {image : Region → List UInt8} : MountsAs img gen image ↔ s.gen + 1 = gen ∧ ∀ r, s.image r ++
      ((s.staged r).take (rising (scan disk r (s.recordCount r).toNat 0 none).last (s.seq r))).flatten = image r := by
  have hdec : superblockDecode (img SB_SECTOR) =
      some ⟨SB_VERSION, s.gen + 1, s.foldStaged.logHead, s.foldStaged.recordCount⟩ := by
    rw [hsb]
    exact superblockDecode_encode _ _ _
  have himage : ∀ r, (scan img r (s.foldStaged.recordCount r).toNat 0 none).stream = s.image r ++
      ((s.staged r).take (rising (scan disk r (s.recordCount r).toNat 0 none).last (s.seq r))).flatten := by
    intro r
    rw [scan_folded (hfit r) hsame (hc.frames r) (hframed r), ← hc.image r]
  rw [MountsAs, mount_healthy hdec]
  constructor
  · rintro ⟨s', hs', rfl, rfl⟩
    cases hs'
    exact ⟨rfl, fun r => (himage r).symm⟩
  · rintro ⟨rfl, himg⟩
    exact ⟨_, rfl, rfl, funext fun r => (himage r).trans (himg r)⟩

/-- A scan that takes all its frames stays within the extent. -/
theorem scan_complete_le {disk : Disk Sector} {r : Region} : ∀ {n i : Nat}
    {last : Option (BitVec 64)}, (scan disk r n i last).frames = n → 0 < n →
      i + n ≤ (regionExtent r).2
  | n + 1, i, last, h, _ => by
      rcases scan_succ disk r i last with hstop | ⟨sector, hd, off, hs, -, -, hgo⟩
      · rw [hstop n] at h
        cases h
      · rw [hgo n] at h
        obtain ⟨hlt, -⟩ := recordSector_eq.mp hs
        cases n with
        | zero => omega
        | succ n =>
            have := scan_complete_le (Nat.succ.inj h) (Nat.succ_pos n)
            omega

theorem VirtioBlkStore.Committed.fits {disk : Disk Sector} {s : VirtioBlkStore} (hc : Committed disk s)
    (hs : ∀ r, s.staged r = []) (r : Region) : s.Fits r := by
  rw [Fits, hs r]
  refine ⟨?_, fun p hp => absurd hp List.not_mem_nil⟩
  rcases Nat.eq_zero_or_pos (s.recordCount r).toNat with hz | hpos
  · rw [hz]
    exact Nat.zero_le _
  · have := scan_complete_le (hc.frames r) hpos
    rw [Nat.zero_add] at this
    exact this

theorem VirtioBlkStore.Committed.staging {disk : Disk Sector} {s s' : VirtioBlkStore} (hc : Committed disk s)
    (h : Staging s s') : Committed disk s' := by
  refine ⟨?_, ?_, ?_⟩
  · rw [hc.superblock, h.gen, h.logHead, h.recordCount]
  · rw [h.recordCount]
    exact hc.frames
  · rw [h.recordCount, h.image]
    exact hc.image

/-- A prefix of a flush's requests that does not reach the superblock writes
uncommitted sectors only; one that does has passed the barrier. -/
theorem prefix_fullTrace {s : VirtioBlkStore} {tr : List (Req Sector)} (h : tr <+: s.fullTrace) :
    (∀ x sec, Req.write x sec ∈ tr → s.Uncommitted x) ∨
    ∃ tl, (∀ x sec, Req.write x sec ∈ tl → x = SB_SECTOR ∧ sec = s.nextSuperblock) ∧
      tr = s.stagedWrites regions ++ Req.flush :: tl := by
  obtain ⟨rest, hrest⟩ := h
  rcases List.append_eq_append_iff.mp hrest with ⟨mid, hw, -⟩ | ⟨mid, rfl, hl⟩
  · refine .inl fun x sec hmem => ?_
    have hmem' : Req.write x sec ∈ s.stagedWrites regions := by
      rw [hw]
      exact List.mem_append_left _ hmem
    exact stagedWrites_fresh hmem'
  · cases mid with
    | nil =>
        rw [List.append_nil]
        exact .inl fun x sec hmem => stagedWrites_fresh hmem
    | cons r tl =>
        rw [List.cons_append, List.cons.injEq] at hl
        obtain ⟨rfl, htl⟩ := hl
        refine .inr ⟨tl, fun x sec hmem => ?_, rfl⟩
        have : Req.write x sec ∈ [Req.write SB_SECTOR s.nextSuperblock, .flush] := by
          rw [htl]
          exact List.mem_append_left _ hmem
        simpa using this

/-- Crash atomicity of one flush.  `disk` is what is durable when it starts, `pend` the writes
earlier flushes left in the device's cache, `tr` what it had issued when the power went: a mount
gives the streams and the generation of before the flush, or those of after it. -/
def CrashAtomic (disk : Disk Sector) (s : VirtioBlkStore) (apps : List (Region × List UInt8)) : Prop :=
  ∀ (pend : List (Req Sector)) (d : Dev Sector) (tr : List (Req Sector)) (img : Disk Sector),
    (∀ x sec, Req.write x sec ∈ pend → s.Uncommitted x) → d.issued = pend →
      pend ++ tr <+: ((appendAll s apps).flush d).2.2.issued → CrashImage disk (pend ++ tr) img →
        MountsAs img s.gen s.image ∨
          MountsAs img (s.gen + 1) fun r => s.image r ++ (appendAll s apps).stagedBytes r

/-- Where the numbers rise, it is all or nothing. -/
theorem crashAtomic_of_rises {disk : Disk Sector} {s : VirtioBlkStore} (hc : Committed disk s)
    (hs : ∀ r, s.staged r = []) {apps : List (Region × List UInt8)} (hrise : (appendAll s apps).Rises disk) :
    CrashAtomic disk s apps := by
  intro pend d tr img hpend hd htr himg
  have hst := appendAll_staging apps s
  have hfit := hst.fits (hc.fits hs)
  have hc' := hc.staging hst
  rw [← hst.gen, ← hst.image]
  have hpend' : ∀ x sec, Req.write x sec ∈ pend → (appendAll s apps).Uncommitted x := by
    intro x sec hmem
    have hu := hpend x sec hmem
    exact ⟨hu.1, by rw [hst.recordCount]; exact hu.2⟩
  generalize appendAll s apps = s₁ at *
  obtain ⟨res, s', d', tr', hrun, hiss, hpre, -⟩ := s₁.flush_trace d
  rw [hrun, hiss.issued, hd, List.prefix_append_right_inj] at htr
  rcases prefix_fullTrace (htr.trans hpre) with hnew | ⟨tl, htl, rfl⟩
  · -- nothing committed was written
    have hfresh : ∀ x, ¬ s₁.Uncommitted x → img x = disk x := by
      intro x hx
      refine himg.untouched fun sec hmem => hx ?_
      rcases List.mem_append.mp hmem with hmem | hmem
      · exact hpend' x sec hmem
      · exact hnew x sec hmem
    exact .inl (mountsAs_committed hc' (hfresh _ fun hu => hu.1 rfl) fun x _ hx => hfresh x hx)
  · -- the frames are settled, the superblock is the old or the new one
    rw [← List.append_assoc] at himg
    have himg' := himg.of_flush
    rw [settle_append] at himg'
    have hbase : ∀ x, ¬ s₁.Uncommitted x →
        settle (settle disk pend) (s₁.stagedWrites regions) x = disk x := by
      intro x hx
      rw [settle_untouched _ _ fun sec hmem => hx (stagedWrites_fresh hmem),
        settle_untouched _ _ fun sec hmem => hx (hpend' x sec hmem)]
    have hlog : ∀ x, x ≠ SB_SECTOR →
        img x = settle (settle disk pend) (s₁.stagedWrites regions) x := by
      intro x hx
      exact himg'.untouched fun sec hmem => hx (htl x sec hmem).1
    have hsame : s₁.SameFrames disk img := fun x hx hu => (hlog x hx).trans (hbase x hu)
    rcases himg'.old_or_written SB_SECTOR with hold | ⟨sec, hmem, hsec⟩
    · rw [hbase _ fun hu => hu.1 rfl] at hold
      exact .inl (mountsAs_committed hc' hold hsame)
    · have hframed : ∀ r, Framed img r (s₁.staged r) (s₁.recordCount r).toNat (s₁.seq r) := by
        intro r j p hp
        obtain ⟨x, sec', hx, he, hdisk⟩ := framed_settle (hfit r) (settle disk pend) j p hp
        exact ⟨x, sec', hx, he, (hlog x (recordSector_ne_sb hx)).trans hdisk⟩
      refine .inr ((mountsAs_folded hc' hfit (hsec.trans (htl _ _ hmem).2) hsame hframed).mpr ⟨rfl, fun r => ?_⟩)
      rw [stagedBytes, List.append_right_inj, flatten_take_eq_iff]
      exact fun j p hp hne => lt_rising.mpr (hrise r j p hp hne)

/-- What a flush asks of a device that never fails. -/
theorem issued_flush {s : VirtioBlkStore} {d : Dev Sector} (hok : ∀ k, d.ok k = true) (hfit : ∀ r, s.Fits r) :
    (s.flush d).2.2.issued = d.issued ++ s.fullTrace := by
  obtain ⟨s', d', hrun⟩ := flush_healthy hok hfit
  obtain ⟨res, s'', d'', tr, hrun', hiss, -, hfull⟩ := s.flush_trace d
  rw [hrun] at hrun'
  cases hrun'
  obtain ⟨rfl, -⟩ := hfull rfl
  rw [hrun]
  exact hiss.issued

/-- After a flush that returned the superblock is the new one and the staged frames are in place. -/
theorem flushed_disk (disk : Disk Sector) {s : VirtioBlkStore} (hfit : ∀ r, s.Fits r) :
    (settle disk s.fullTrace) SB_SECTOR = s.nextSuperblock ∧ s.SameFrames disk (settle disk s.fullTrace) ∧
      ∀ r, Framed (settle disk s.fullTrace) r (s.staged r) (s.recordCount r).toNat (s.seq r) := by
  have hfull : settle disk s.fullTrace =
      Function.update (settle disk (s.stagedWrites regions)) SB_SECTOR s.nextSuperblock := by
    rw [fullTrace, settle_append]
    rfl
  refine ⟨by rw [hfull, Function.update_self], fun x hx hu => ?_, fun r j p hp => ?_⟩
  · rw [hfull, Function.update_of_ne hx, settle_untouched _ _ fun sec hmem => hu (stagedWrites_fresh hmem)]
  · obtain ⟨x, sec, hx, he, hdisk⟩ := framed_settle (hfit r) disk j p hp
    exact ⟨x, sec, hx, he, by rw [hfull, Function.update_of_ne (recordSector_ne_sb hx), hdisk]⟩

/-- A flush that returns, and then a crash: where a payload goes under a number past the wrap, the
mount gives neither. -/
theorem rises_of_crashAtomic {disk : Disk Sector} {s : VirtioBlkStore} (hc : Committed disk s)
    (hs : ∀ r, s.staged r = []) {apps : List (Region × List UInt8)} (h : CrashAtomic disk s apps) :
    (appendAll s apps).Rises disk := by
  have hst := appendAll_staging apps s
  have hfit := hst.fits (hc.fits hs)
  have hc' := hc.staging hst
  obtain ⟨hsb, hsame, hframed⟩ := flushed_disk disk hfit
  have hmount := @mountsAs_folded _ _ _ hc' hfit hsb hsame hframed
  have hboth := h [] (Dev.healthy disk) (appendAll s apps).fullTrace (settle disk (appendAll s apps).fullTrace)
    (fun _ _ hmem => absurd hmem List.not_mem_nil) rfl
    (by rw [issued_flush (fun _ => rfl) hfit]; exact List.prefix_refl _)
    ⟨_, [], (List.append_nil _).symm, List.not_mem_nil, fun _ => .inl rfl⟩
  rw [hmount, hmount, hst.gen] at hboth
  rcases hboth with ⟨hgen, -⟩ | ⟨-, himage⟩
  · exact absurd hgen (by bv_omega)
  · intro r j p hp hne
    have hr := himage r
    rw [hst.image, stagedBytes, List.append_right_inj, flatten_take_eq_iff] at hr
    exact lt_rising.mp (hr j p hp hne)

/-- A flush is all or nothing, whenever the power goes, exactly when no payload with bytes in it
goes under a number that does not rise. -/
theorem flush_crash_atomic_iff {disk : Disk Sector} {s : VirtioBlkStore} (hc : Committed disk s)
    (hs : ∀ r, s.staged r = []) (apps : List (Region × List UInt8)) :
    CrashAtomic disk s apps ↔ (appendAll s apps).Rises disk :=
  ⟨rises_of_crashAtomic hc hs, crashAtomic_of_rises hc hs⟩

def blankSector : Sector := ⟨List.replicate 512 0, List.length_replicate⟩

/-- A blank disk just formatted. -/
def formatted : Disk Sector := fun n =>
  if n = SB_SECTOR then superblockEncode 0 (fun _ => 0) (fun _ => 0)
  else blankSector

theorem committed_formatted : Committed formatted empty where
  superblock := superblockDecode_encode 0 _ _
  frames := fun _ => rfl
  image := fun _ => rfl

/-- The first flush of a formatted disk is all or nothing. -/
theorem first_flush_atomic :
    (CrashAtomic formatted empty [(.episodic, [1, 2, 3]), (.semantic, [4])] ↔
      (appendAll empty [(.episodic, [1, 2, 3]), (.semantic, [4])]).Rises formatted) ∧
    CrashAtomic formatted empty [(.episodic, [1, 2, 3]), (.semantic, [4])] := by
  have hiff := flush_crash_atomic_iff committed_formatted (fun _ => rfl) [(.episodic, [1, 2, 3]), (.semantic, [4])]
  refine ⟨hiff, hiff.mpr fun r j p hp _ => ?_⟩
  have hseq : ((appendAll empty [(.episodic, [1, 2, 3]), (.semantic, [4])]).seq r).toNat = 0 := rfl
  have hlen : ((appendAll empty [(.episodic, [1, 2, 3]), (.semantic, [4])]).staged r).length ≤ 1 := by
    cases r <;> decide
  obtain ⟨hj, -⟩ := List.getElem?_eq_some_iff.mp hp
  exact ⟨fun q hq => (by cases hq), by omega⟩

/-- One committed frame, two numbers before the last. -/
def lateDisk : Disk Sector := fun n =>
  if n = SB_SECTOR then superblockEncode 1#64 (fun r => if r = .episodic then 512#64 else 0#64)
    (fun r => if r = .episodic then 1#64 else 0#64)
  else if n = 1 then (recordFrameEncode (regionTag .episodic) (BitVec.ofNat 64 (2 ^ 64 - 2)) [5]).getD blankSector
  else blankSector

/-- What a mount of it gives. -/
def late : VirtioBlkStore := replayed lateDisk
  ⟨SB_VERSION, 1#64, fun r => if r = .episodic then 512#64 else 0#64, fun r => if r = .episodic then 1#64 else 0#64⟩

/-- Two payloads are staged and flushed, and the power goes after the flush: the second went under
number zero, and the mount gives the first at the new generation. -/
theorem late_flush_torn :
    (mount (Dev.healthy lateDisk)).1 = .ok late ∧ Committed lateDisk late ∧ (∀ r, late.staged r = []) ∧
      late.image .episodic = [5] ∧
      MountsAs (settle lateDisk ((appendAll late [(.episodic, [7]), (.episodic, [8])]).flush
        (Dev.healthy lateDisk)).2.2.issued) (late.gen + 1) (fun r => if r = .episodic then [5, 7] else []) ∧
      ¬ CrashAtomic lateDisk late [(.episodic, [7]), (.episodic, [8])] := by
  have hsb : superblockDecode (lateDisk SB_SECTOR) = some ⟨SB_VERSION, 1#64,
      fun r => if r = .episodic then 512#64 else 0#64, fun r => if r = .episodic then 1#64 else 0#64⟩ :=
    superblockDecode_encode _ _ _
  have hc : Committed lateDisk late := ⟨hsb, fun r => by cases r <;> decide, fun _ => rfl⟩
  have hst := appendAll_staging [(.episodic, [7]), (.episodic, [8])] late
  have hfit := hst.fits (hc.fits fun _ => rfl)
  obtain ⟨hnew, hsame, hframed⟩ := flushed_disk lateDisk hfit
  refine ⟨mount_healthy hsb, hc, fun _ => rfl, by decide, ?_, fun h => ?_⟩
  · rw [issued_flush (fun _ => rfl) hfit]
    refine (mountsAs_folded (hc.staging hst) hfit hnew hsame hframed).mpr ⟨rfl, fun r => ?_⟩
    cases r <;> decide
  · have hlt := (rises_of_crashAtomic hc (fun _ => rfl) h .episodic 1 [8] rfl (by decide)).2
    revert hlt
    decide

end Yuva.Store
