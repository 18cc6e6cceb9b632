/-
# `Yuva.Store.Durable` — does a flushed append come back?

Mount any disk, append one payload, flush, mount again.  Where the first replay
took every committed frame, the payload is the next frame of the stream and comes
back.  Where it stopped early, at a frame that does not decode or whose sequence
number does not increase, the record count still covers the frames it ignored:
the new frame is written after them and the next replay stops where the first
did.  A last sequence number of `u64::MAX` has the same effect, since the next
one wraps to zero.

`Intact` says that neither is the case, which is exactly when a non-empty payload
comes back.
-/
import Yuva.Store.Crash

namespace Yuva.Store

open Yuva.Bytes Yuva.Volatile VirtioBlkStore

/-! ## What a mount leaves -/

/-- The record count a disk's superblock commits to; none on an unformatted disk. -/
def committedCount (disk : Disk Sector) (r : Region) : Nat :=
  match superblockDecode (disk SB_SECTOR) with
  | some sb => (sb.recordCount r).toNat
  | none => 0

/-- The store and the device after a mount of `disk`. -/
structure Mounted (disk : Disk Sector) (d : Dev Sector) (s : VirtioBlkStore) : Prop where
  staged : ∀ r, s.staged r = []
  count : ∀ r, (s.recordCount r).toNat = committedCount disk r
  image : ∀ r, s.image r = (scan disk r (committedCount disk r) 0 none).stream
  seq : ∀ r, s.seq r = nextSeq (scan disk r (committedCount disk r) 0 none).last
  log : ∀ x, x ≠ SB_SECTOR → d.disk x = disk x

theorem mount_ok {d d₁ : Dev Sector} {s : VirtioBlkStore} (h : mount d = (.ok s, d₁)) :
    Mounted d.disk d₁ s := by
  cases hsb : superblockDecode (d.disk SB_SECTOR) with
  | some sb =>
      have hcount : ∀ r, committedCount d.disk r = (sb.recordCount r).toNat := fun r => by
        simp only [committedCount, hsb]
      obtain ⟨d', hro, hm | ⟨hm, -⟩⟩ := mount_scan hsb
      · rw [h] at hm
        cases hm
        refine ⟨fun _ => rfl, fun r => (hcount r).symm, fun r => ?_, fun r => ?_, fun x _ => ?_⟩
        · rw [hcount]
          rfl
        · rw [hcount]
          rfl
        · rw [hro.disk]
      · rw [h] at hm
        cases hm
  | none =>
      have hcount : ∀ r, committedCount d.disk r = 0 := fun r => by
        simp only [committedCount, hsb]
      obtain ⟨d', hro, hread | ⟨hread, -⟩⟩ := read_cases d SB_SECTOR
      · simp only [mount, hread, hsb] at h
        obtain ⟨d₂, ⟨hend, -⟩ | ⟨hend, -⟩ | ⟨hend, hdisk, -⟩⟩ := empty.writeSuperblock_cases 0 d'
        · rw [hend] at h
          cases h
        · rw [hend] at h
          cases h
        · rw [hend] at h
          cases h
          refine ⟨fun _ => rfl, fun r => ?_, fun r => ?_, fun r => ?_, fun x hx => ?_⟩
          · rw [hcount]
            rfl
          · rw [hcount]
            rfl
          · rw [hcount]
            rfl
          · rw [hdisk, Function.update_of_ne hx, hro.disk]
      · simp only [mount, hread] at h
        cases h

/-! ## Intact logs -/

/-- The header of frame `i`, if it decodes. -/
def frameAt (disk : Disk Sector) (r : Region) (i : Nat) : Option FrameHeader :=
  match recordSector r (i * SECTOR_SIZE) with
  | none => none
  | some x => (recordFrameDecode (disk x)).map Prod.fst

/-- The `n` frames from `i` on decode, and each sequence number is above the one
before it and below `u64::MAX`. -/
def Intact (disk : Disk Sector) (r : Region) : Nat → Nat → Option (BitVec 64) → Prop
  | 0, _, _ => True
  | n + 1, i, last => ∃ h, frameAt disk r i = some h ∧ h.seq ≠ BitVec.allOnes 64 ∧
      (∀ p, last = some p → p < h.seq) ∧ Intact disk r n (i + 1) (some h.seq)

theorem staleSeq_eq_false {last : Option (BitVec 64)} {q : BitVec 64} :
    staleSeq last q = false ↔ ∀ p, last = some p → p < q := by
  cases last with
  | none => simp [staleSeq]
  | some p => simp [staleSeq]

theorem lt_allOnes {p q : BitVec 64} (h : p < q) : p ≠ BitVec.allOnes 64 := by
  rintro rfl
  have hq := q.isLt
  rw [BitVec.lt_def, BitVec.toNat_allOnes] at h
  omega

/-- An intact log is one a scan takes whole, and whose last number can be
incremented. -/
theorem intact_iff {disk : Disk Sector} {r : Region} : ∀ {n i : Nat} {last : Option (BitVec 64)},
    last ≠ some (BitVec.allOnes 64) → (Intact disk r n i last ↔
      (scan disk r n i last).frames = n ∧
        (scan disk r n i last).last ≠ some (BitVec.allOnes 64))
  | 0, _, _, h => ⟨fun _ => ⟨rfl, h⟩, fun _ => trivial⟩
  | n + 1, i, last, h => by
      constructor
      · rintro ⟨hd, hframe, hmax, hlt, hrest⟩
        have hne : some hd.seq ≠ some (BitVec.allOnes 64) := fun e => hmax (Option.some.inj e)
        obtain ⟨hfr, hlast⟩ := (intact_iff hne).mp hrest
        simp only [frameAt] at hframe
        split at hframe
        · cases hframe
        · rename_i x hx
          obtain ⟨ho, hdec, rfl⟩ := Option.map_eq_some_iff.mp hframe
          obtain ⟨hd, off⟩ := ho
          simp only [scan, hx, hdec, staleSeq_eq_false.mpr hlt]
          exact ⟨congrArg Nat.succ hfr, hlast⟩
      · rintro ⟨hfr, hlast⟩
        rcases scan_succ disk r i last with hstop | ⟨x, hd, off, hx, hdec, hst, hgo⟩
        · rw [hstop n] at hfr
          cases hfr
        · rw [hgo n] at hfr hlast
          have hfr' : (scan disk r n (i + 1) (some hd.seq)).frames = n := Nat.succ.inj hfr
          have hmax : hd.seq ≠ BitVec.allOnes 64 := by
            -- a later frame of the scan is above it, or it is the last one
            cases n with
            | zero => exact fun e => hlast (by rw [e]; rfl)
            | succ n =>
                rcases scan_succ disk r (i + 1) (some hd.seq) with hstop |
                  ⟨x', hd', off', -, -, hst', -⟩
                · rw [hstop n] at hfr'
                  cases hfr'
                · exact lt_allOnes (staleSeq_eq_false.mp hst' _ rfl)
          refine ⟨hd, by simp [frameAt, hx, hdec], hmax, staleSeq_eq_false.mp hst, ?_⟩
          exact (intact_iff fun e => hmax (Option.some.inj e)).mpr ⟨hfr', hlast⟩

/-! ## One append, one flush -/

theorem append_ok {s s₁ : VirtioBlkStore} {r : Region} {p : List UInt8} {off : Nat}
    (hs : s.staged r = []) (h : s.append r p = (.ok off, s₁)) :
    off = (s.image r).length ∧ s₁.staged r = [p] ∧ s₁.Fits r := by
  simp only [append] at h
  split at h
  · cases h
  · rename_i hlen
    split at h
    · cases h
    · rename_i hext
      rw [hs] at h hext
      cases h
      refine ⟨by simp, by simp, ?_, ?_⟩
      · simp only [Function.update_self, List.nil_append, List.length_singleton]
        simp only [List.length_nil] at hext
        omega
      · simp only [Function.update_self, List.nil_append, List.mem_singleton]
        rintro _ rfl
        exact Nat.le_of_not_gt hlen

/-- The disk a successful flush leaves. -/
theorem flush_ok {s s₂ : VirtioBlkStore} {d d₂ : Dev Sector} (h : s.flush d = (.ok (), s₂, d₂)) :
    d₂.disk = Function.update (settle d.disk (s.stagedWrites regions)) SB_SECTOR
      s.nextSuperblock := by
  obtain ⟨res, s', d', tr, hrun, -, -, hok⟩ := s.flush_trace d
  rw [h] at hrun
  cases hrun
  rw [(hok rfl).2, fullTrace, settle_append]
  rfl

/-- A mount of the flushed disk gives the stream, from which the payload reads back. -/
def ReadsBack (disk : Disk Sector) (s : VirtioBlkStore) (r : Region) (off : Nat)
    (p : List UInt8) : Prop :=
  ∃ s', (mount (Dev.healthy disk)).1 = .ok s' ∧ s'.image r = s.image r ++ p ∧
    s'.readAt r off p.length = .ok p

theorem readAt_end {s : VirtioBlkStore} {r : Region} {a p : List UInt8} (hs : s.staged r = [])
    (himg : s.image r = a ++ p) : s.readAt r a.length p.length = .ok p := by
  have hstream : s.stream r = a ++ p := by simp [stream, stagedBytes, hs, himg]
  rw [readAt_eq, hstream, if_neg (by simp), List.drop_left, List.take_length]

section

variable {d d₁ d₂ : Dev Sector} {s s₁ s₂ : VirtioBlkStore} {r : Region} {p : List UInt8}
  {off : Nat}

/-- What the second mount replays: the scan of one more frame. -/
theorem remount_image (hf : s₁.flush d₁ = (.ok (), s₂, d₂)) :
    ∃ s', (mount (Dev.healthy d₂.disk)).1 = .ok s' ∧ (∀ r, s'.staged r = []) ∧
      ∀ r, s'.image r = (scan d₂.disk r (s₁.foldStaged.recordCount r).toNat 0 none).stream := by
  have hdec : superblockDecode (d₂.disk SB_SECTOR) =
      some ⟨SB_VERSION, s₁.gen + 1, s₁.foldStaged.logHead, s₁.foldStaged.recordCount⟩ := by
    rw [flush_ok hf, Function.update_self]
    exact superblockDecode_encode _ _ _
  exact ⟨_, mount_healthy hdec, fun _ => rfl, fun _ => rfl⟩

/-- The flush touched no frame the first mount replayed, or ignored. -/
theorem flush_sameFrames (hm : Mounted d.disk d₁ s)
    (hf : s₁.flush d₁ = (.ok (), s₂, d₂)) : s₁.SameFrames d.disk d₂.disk := by
  intro x hx hu
  rw [flush_ok hf, Function.update_of_ne hx,
    settle_untouched _ _ fun sec hmem => hu (stagedWrites_fresh hmem), hm.log x hx]

theorem flush_framed (hfit : s₁.Fits r) (hf : s₁.flush d₁ = (.ok (), s₂, d₂)) :
    Framed d₂.disk r (s₁.staged r) (s₁.recordCount r).toNat (s₁.seq r) := by
  intro j q hq
  obtain ⟨x, sec, hx, he, hdisk⟩ := framed_settle hfit d₁.disk j q hq
  refine ⟨x, sec, hx, he, ?_⟩
  rw [flush_ok hf, Function.update_of_ne (recordSector_ne_sb hx), hdisk]

/-- An intact log: the new frame is the next of the stream. -/
theorem remount_intact (hm : Mounted d.disk d₁ s) (hst : Staging s s₁)
    (hp : s₁.staged r = [p]) (hfit : s₁.Fits r) (hf : s₁.flush d₁ = (.ok (), s₂, d₂))
    (hi : Intact d.disk r (committedCount d.disk r) 0 none) :
    (scan d₂.disk r (s₁.foldStaged.recordCount r).toNat 0 none).stream = s.image r ++ p := by
  obtain ⟨hfr, hlast⟩ := (intact_iff (by simp)).mp hi
  have hcount : (s₁.recordCount r).toNat = committedCount d.disk r := by
    rw [hst.recordCount, hm.count]
  have hbelow : Below (scan d.disk r (s₁.recordCount r).toNat 0 none).last (s₁.seq r) := by
    rw [hcount, hst.seq, hm.seq]
    rintro q hq
    rw [hq] at hlast ⊢
    have hne : q.toNat ≠ 2 ^ 64 - 1 := fun e =>
      hlast (congrArg some (BitVec.eq_of_toNat_eq (by rw [e, BitVec.toNat_allOnes])))
    have := q.isLt
    show q.toNat < (q + 1#64).toNat
    simp only [BitVec.toNat_add, BitVec.toNat_ofNat]
    omega
  have hone : (s₁.staged r).length ≤
      rising (scan d.disk r (s₁.recordCount r).toNat 0 none).last (s₁.seq r) := by
    have := (s₁.seq r).isLt
    rw [hp, List.length_singleton, rising_of_below hbelow]
    omega
  rw [scan_folded hfit (flush_sameFrames hm hf) (by rw [hcount]; exact hfr) (flush_framed hfit hf),
    List.take_of_length_le hone, hcount, hm.image, hp, List.flatten_singleton]

/-- A log that is not intact: the next replay stops where the first did. -/
theorem remount_damaged (hm : Mounted d.disk d₁ s) (hst : Staging s s₁)
    (hp : s₁.staged r = [p]) (hfit : s₁.Fits r) (hf : s₁.flush d₁ = (.ok (), s₂, d₂))
    (hi : ¬ Intact d.disk r (committedCount d.disk r) 0 none) :
    (scan d₂.disk r (s₁.foldStaged.recordCount r).toNat 0 none).stream = s.image r := by
  have hcount : (s₁.recordCount r).toNat = committedCount d.disk r := by
    rw [hst.recordCount, hm.count]
  have hold := (flush_sameFrames hm hf).scan_eq r
  rw [hcount] at hold
  rw [toNat_folded_count hfit, hcount, hp, List.length_singleton, hm.image]
  by_cases hfr : (scan d.disk r (committedCount d.disk r) 0 none).frames = committedCount d.disk r
  · -- the last number is `u64::MAX`, so the new frame's is zero
    have hlast : (scan d.disk r (committedCount d.disk r) 0 none).last =
        some (BitVec.allOnes 64) := by
      by_contra hne
      exact hi ((intact_iff (by simp)).mpr ⟨hfr, hne⟩)
    obtain ⟨x, sec, hx, he, hdisk⟩ := flush_framed hfit hf 0 p (by rw [hp]; rfl)
    obtain ⟨hd, hdec, hseq, -⟩ := recordFrameDecode_encode he
    have hzero : staleSeq (some (BitVec.allOnes 64)) hd.seq = true := by
      rw [hseq, hst.seq, hm.seq, hlast]
      decide
    subst hdisk
    rw [hcount, Nat.add_zero] at hx
    rw [scan_add 1 (by rw [hold]; exact hfr), hold, hlast, Nat.zero_add]
    simp only [scan, hx, hdec, hzero, if_true, List.append_nil]
  · have hlt : (scan d.disk r (committedCount d.disk r) 0 none).frames < committedCount d.disk r :=
      Nat.lt_of_le_of_ne (scan_frames_le _ _ _ _ _) hfr
    rw [scan_stuck 1 (by rw [hold]; exact hlt), hold]

/-- Mount, append, flush, mount: the payload comes back exactly when it is empty or
the region's log was intact. -/
theorem reads_back_iff (hm : mount d = (.ok s, d₁)) (ha : s.append r p = (.ok off, s₁))
    (hf : s₁.flush d₁ = (.ok (), s₂, d₂)) : ReadsBack d₂.disk s r off p ↔
      p = [] ∨ Intact d.disk r (committedCount d.disk r) 0 none := by
  have hmount := mount_ok hm
  have hst : Staging s s₁ := by
    have := append_staging s r p
    rwa [ha] at this
  obtain ⟨rfl, hp, hfit⟩ := append_ok (hmount.staged r) ha
  obtain ⟨s', hs', hstaged, himg⟩ := remount_image hf
  constructor
  · rintro ⟨s'', hs'', hstream, -⟩
    rw [hs'] at hs''
    cases hs''
    by_cases hi : Intact d.disk r (committedCount d.disk r) 0 none
    · exact .inr hi
    · rw [himg, remount_damaged hmount hst hp hfit hf hi] at hstream
      exact .inl (List.self_eq_append_right.mp hstream)
  · intro hcond
    have hstream : s'.image r = s.image r ++ p := by
      rw [himg]
      by_cases hi : Intact d.disk r (committedCount d.disk r) 0 none
      · exact remount_intact hmount hst hp hfit hf hi
      · rw [remount_damaged hmount hst hp hfit hf hi, hcond.resolve_right hi, List.append_nil]
    exact ⟨s', hs', hstream, readAt_end (hstaged r) hstream⟩

end

/-- A disk whose superblock commits one episodic frame that never reached its
sector. -/
def tornDisk : Disk Sector := fun n =>
  if n = SB_SECTOR then
    superblockEncode 1#64 (fun _ => 0) (fun r => if r = .episodic then 1#64 else 0#64)
  else blankSector

theorem mount_append_flush {disk : Disk Sector} {sb : Superblock} {r : Region} {p : List UInt8}
    (hsb : superblockDecode (disk SB_SECTOR) = some sb) (hlen : p.length ≤ MAX_PAYLOAD)
    (hcount : ∀ r, (sb.recordCount r).toNat < (regionExtent r).2) :
    ∃ s d₁ off s₁ s₂ d₂, mount (Dev.healthy disk) = (.ok s, d₁) ∧
      s.append r p = (.ok off, s₁) ∧ s₁.flush d₁ = (.ok (), s₂, d₂) := by
  obtain ⟨d₁, hro, hm | ⟨-, k, hk⟩⟩ := mount_scan (d := Dev.healthy disk) hsb
  · have hfits : ∀ r, (replayed disk sb).Fits r := fun r =>
      ⟨by have := hcount r; exact Nat.le_of_lt this, fun _ h => absurd h List.not_mem_nil⟩
    have hext : ¬ (sb.recordCount r).toNat ≥ (regionExtent r).2 := Nat.not_le.mpr (hcount r)
    have ha : ((replayed disk sb).append r p).1 = .ok ((replayed disk sb).image r).length := by
      simp only [append, if_neg (Nat.not_lt.mpr hlen), replayed, List.length_nil, List.map_nil,
        List.sum_nil, Nat.add_zero, if_neg hext]
    obtain ⟨s₂, d₂, hf⟩ := flush_healthy (d := d₁) (fun k => by rw [hro.ok]; rfl)
      ((append_staging (replayed disk sb) r p).fits hfits)
    exact ⟨_, d₁, _, _, s₂, d₂, hm, Prod.ext ha rfl, hf⟩
  · cases hk

theorem tornDisk_superblock : superblockDecode (tornDisk SB_SECTOR) =
    some ⟨SB_VERSION, 1#64, fun _ => 0, fun r => if r = .episodic then 1#64 else 0#64⟩ :=
  superblockDecode_encode _ _ _

/-- On the torn disk every call succeeds and the payload is gone. -/
theorem torn_append_lost : ∃ s d₁ off s₁ s₂ d₂, mount (Dev.healthy tornDisk) = (.ok s, d₁) ∧
    s.append .episodic [7] = (.ok off, s₁) ∧ s₁.flush d₁ = (.ok (), s₂, d₂) ∧
    ¬ ReadsBack d₂.disk s .episodic off [7] := by
  obtain ⟨s, d₁, off, s₁, s₂, d₂, hm, ha, hf⟩ := mount_append_flush (r := .episodic) (p := [7])
    tornDisk_superblock (by decide) (fun r => by cases r <;> decide)
  refine ⟨s, d₁, off, s₁, s₂, d₂, hm, ha, hf, ?_⟩
  have hmount := mount_ok hm
  have hst : Staging s s₁ := by
    have := append_staging s .episodic [7]
    rwa [ha] at this
  obtain ⟨-, hp, hfit⟩ := append_ok (hmount.staged .episodic) ha
  rintro ⟨s', hs', hstream, -⟩
  obtain ⟨s'', hs'', -, himg⟩ := remount_image hf
  rw [hs'] at hs''
  cases hs''
  have hone : committedCount tornDisk .episodic = 1 := by
    simp only [committedCount, tornDisk_superblock]
    rfl
  have hdamaged : ¬ Intact tornDisk .episodic (committedCount tornDisk .episodic) 0 none := by
    rw [hone]
    rintro ⟨h, hframe, -⟩
    have hnone : frameAt tornDisk .episodic 0 = none := by decide
    rw [hnone] at hframe
    cases hframe
  rw [himg, remount_damaged hmount hst hp hfit hf hdamaged] at hstream
  exact absurd (List.self_eq_append_right.mp hstream) (by decide)

/-- On a formatted disk the payload comes back. -/
theorem formatted_append_read : ∃ s d₁ off s₁ s₂ d₂, mount (Dev.healthy formatted) = (.ok s, d₁) ∧
    s.append .semantic [1, 2, 3] = (.ok off, s₁) ∧ s₁.flush d₁ = (.ok (), s₂, d₂) ∧
    ReadsBack d₂.disk s .semantic off [1, 2, 3] := by
  have hsb : superblockDecode (formatted SB_SECTOR) =
      some ⟨SB_VERSION, 0, fun _ => 0, fun _ => 0⟩ := superblockDecode_encode _ _ _
  obtain ⟨s, d₁, off, s₁, s₂, d₂, hm, ha, hf⟩ := mount_append_flush (r := .semantic)
    (p := [1, 2, 3]) hsb (by decide) (fun r => by cases r <;> decide)
  refine ⟨s, d₁, off, s₁, s₂, d₂, hm, ha, hf, (reads_back_iff hm ha hf).mpr (.inr ?_)⟩
  have hzero : committedCount formatted .semantic = 0 := by
    simp only [committedCount, hsb]
    rfl
  show Intact formatted .semantic (committedCount formatted .semantic) 0 none
  rw [hzero]
  trivial

end Yuva.Store
