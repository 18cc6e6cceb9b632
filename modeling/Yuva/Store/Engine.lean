/-
# `Yuva.Store.Engine` — the durable record store

`VirtioBlkStore` of `tb-hal/src/mem/engine.rs` over the device of
`Yuva.Lib.Volatile`: mount and replay, append, read, and the two-phase flush.
A failing call leaves the store as the source leaves it (the sequence numbers of
frames already written stay advanced), so each returns the store beside its
result.  Counters are 64-bit words with wrapping addition.

`scan` is the replay of one region read off a disk, without the device; it is
what `replayRegion` computes whenever it returns (`replayRegion_scan`), and it
always returns on a device that never fails (`mount_healthy`).  `scan_congr`,
`scan_add` and `scan_stuck` say what a scan depends on and how it goes on.
-/
import Yuva.Lib.Volatile
import Yuva.Store.Blkfmt

namespace Yuva.Store

open Yuva.Bytes Yuva.Volatile

inductive MemErr where
  | full | notFound | io
deriving DecidableEq, Repr

/-- The mounted store. -/
structure VirtioBlkStore where
  gen : BitVec 64
  logHead : Region → BitVec 64
  recordCount : Region → BitVec 64
  seq : Region → BitVec 64
  staged : Region → List (List UInt8)
  image : Region → List UInt8
  appendsSinceMount : BitVec 64

/-- The regions in replay and flush order. -/
def regions : List Region := [.episodic, .semantic, .working]

/-- A sequence number that does not exceed the last one stops the replay. -/
def staleSeq (last : Option (BitVec 64)) (seq : BitVec 64) : Bool :=
  match last with
  | some p => seq ≤ p
  | none => false

/-- The replay loop of one region: `n` frames left, the next at index `i`. -/
def replayLoop (r : Region) : Nat → Nat → Option (BitVec 64) → List UInt8 → Dev Sector →
    Except MemErr (Option (BitVec 64) × List UInt8) × Dev Sector
  | 0, _, last, img, d => (.ok (last, img), d)
  | n + 1, i, last, img, d =>
      match recordSector r (i * SECTOR_SIZE) with
      | none => (.ok (last, img), d)
      | some sector =>
          match d.read sector with
          | (none, d') => (.error .io, d')
          | (some sec, d') =>
              match recordFrameDecode sec with
              | none => (.ok (last, img), d')
              | some (h, off) =>
                  if staleSeq last h.seq then (.ok (last, img), d')
                  else
                    replayLoop r n (i + 1) (some h.seq) (img ++ slice sec.val off h.len.toNat) d'

/-- The sequence number the next append continues with; `x + 1` wraps. -/
def nextSeq : Option (BitVec 64) → BitVec 64
  | some x => x + 1
  | none => 0

namespace VirtioBlkStore

/-- Replay every listed region into the image. -/
def replay (s : VirtioBlkStore) : List Region → Dev Sector → Except MemErr VirtioBlkStore × Dev Sector
  | [], d => (.ok s, d)
  | r :: rs, d =>
      match replayLoop r (s.recordCount r).toNat 0 none (s.image r) d with
      | (.error e, d') => (.error e, d')
      | (.ok (last, img), d') =>
          replay { s with
            image := Function.update s.image r img
            seq := Function.update s.seq r (nextSeq last) } rs d'

/-- Encode and write the superblock, then flush. -/
def writeSuperblock (s : VirtioBlkStore) (gen : BitVec 64) (d : Dev Sector) :
    Except MemErr Unit × VirtioBlkStore × Dev Sector :=
  match d.write SB_SECTOR (superblockEncode gen s.logHead s.recordCount) with
  | (false, d') => (.error .io, s, d')
  | (true, d') =>
      match d'.flush with
      | (false, d'') => (.error .io, s, d'')
      | (true, d'') => (.ok (), { s with gen := gen }, d'')

def empty : VirtioBlkStore :=
  ⟨0, fun _ => 0, fun _ => 0, fun _ => 0, fun _ => [], fun _ => [], 0⟩

/-- Read the superblock and replay, or format. -/
def mount (d : Dev Sector) : Except MemErr VirtioBlkStore × Dev Sector :=
  match d.read SB_SECTOR with
  | (none, d') => (.error .io, d')
  | (some sec, d') =>
      match superblockDecode sec with
      | some sb =>
          { empty with gen := sb.gen, logHead := sb.logHead, recordCount := sb.recordCount }.replay
            regions d'
      | none =>
          match empty.writeSuperblock 0 d' with
          | (.error e, _, d'') => (.error e, d'')
          | (.ok (), s, d'') => (.ok s, d'')

/-- The bytes staged for a region. -/
def stagedBytes (s : VirtioBlkStore) (r : Region) : List UInt8 := (s.staged r).flatten

/-- Stage one payload; the answer is its offset in the region's stream. -/
def append (s : VirtioBlkStore) (r : Region) (bytes : List UInt8) : Except MemErr Nat × VirtioBlkStore :=
  if bytes.length > MAX_PAYLOAD then (.error .full, s)
  else if (s.recordCount r).toNat + (s.staged r).length ≥ (regionExtent r).2 then (.error .full, s)
  else
    (.ok ((s.image r).length + ((s.staged r).map List.length).sum),
      { s with
        staged := Function.update s.staged r (s.staged r ++ [bytes])
        appendsSinceMount := s.appendsSinceMount + 1 })

/-- Walk the staged payloads to the byte at `rem`. -/
def stagedAt : List (List UInt8) → Nat → UInt8
  | [], _ => 0
  | v :: vs, rem => if h : rem < v.length then v[rem] else stagedAt vs (rem - v.length)

/-- The copy loop of `read_at`: `n` bytes of buffer left. -/
def readLoop (s : VirtioBlkStore) (r : Region) (total : Nat) : Nat → Nat → List UInt8
  | 0, _ => []
  | n + 1, pos =>
      if pos < total then
        (if h : pos < (s.image r).length then (s.image r)[pos]
          else stagedAt (s.staged r) (pos - (s.image r).length)) :: readLoop s r total n (pos + 1)
      else []

/-- Up to `n` bytes of the region's stream from `off`. -/
def readAt (s : VirtioBlkStore) (r : Region) (off n : Nat) : Except MemErr (List UInt8) :=
  let total := (s.image r).length + ((s.staged r).map List.length).sum
  if off > total then .error .notFound else .ok (s.readLoop r total n off)

/-- Write the staged frames of one region: sequence numbers advance as frames
are written. -/
def writeFrames (r : Region) : List (List UInt8) → Nat → BitVec 64 → Dev Sector →
    Except MemErr Unit × BitVec 64 × Dev Sector
  | [], _, seq, d => (.ok (), seq, d)
  | payload :: rest, idx, seq, d =>
      match recordSector r (idx * SECTOR_SIZE) with
      | none => (.error .full, seq, d)
      | some sector =>
          match recordFrameEncode (regionTag r) seq payload with
          | none => (.error .io, seq, d)
          | some sec =>
              match d.write sector sec with
              | (false, d') => (.error .io, seq, d')
              | (true, d') => writeFrames r rest (idx + 1) (seq + 1) d'

/-- Phase 1 over the listed regions. -/
def writeStaged (s : VirtioBlkStore) : List Region → Dev Sector → Except MemErr Unit × VirtioBlkStore × Dev Sector
  | [], d => (.ok (), s, d)
  | r :: rs, d =>
      match writeFrames r (s.staged r) (s.recordCount r).toNat (s.seq r) d with
      | (.error e, q, d') => (.error e, { s with seq := Function.update s.seq r q }, d')
      | (.ok (), q, d') => writeStaged { s with seq := Function.update s.seq r q } rs d'

/-- Fold the staged payloads into the committed image and watermarks. -/
def foldStaged (s : VirtioBlkStore) : VirtioBlkStore :=
  { s with
    image := fun r => s.image r ++ s.stagedBytes r
    recordCount := fun r => s.recordCount r + BitVec.ofNat 64 (s.staged r).length
    logHead := fun r => s.logHead r + BitVec.ofNat 64 ((s.staged r).length * SECTOR_SIZE)
    staged := fun _ => [] }

/-- Frames, barrier, superblock, barrier. -/
def flush (s : VirtioBlkStore) (d : Dev Sector) : Except MemErr Unit × VirtioBlkStore × Dev Sector :=
  match s.writeStaged regions d with
  | (.error e, s', d') => (.error e, s', d')
  | (.ok (), s', d') =>
      match d'.flush with
      | (false, d'') => (.error .io, s', d'')
      | (true, d'') => s'.foldStaged.writeSuperblock (s'.gen + 1) d''

/-- `(gen << 32) | (appends & 0xFFFF_FFFF)`. -/
def epoch (s : VirtioBlkStore) : BitVec 64 := (s.gen <<< 32) ||| (s.appendsSinceMount &&& 0xFFFFFFFF)

end VirtioBlkStore

/-! ## Reading -/

namespace VirtioBlkStore

/-- The logical stream of a region: the committed image, then what is staged. -/
def stream (s : VirtioBlkStore) (r : Region) : List UInt8 := s.image r ++ s.stagedBytes r

theorem length_stream (s : VirtioBlkStore) (r : Region) :
    (s.stream r).length = (s.image r).length + ((s.staged r).map List.length).sum := by
  rw [stream, List.length_append, stagedBytes, List.length_flatten]

theorem stagedAt_eq (vs : List (List UInt8)) {rem : Nat} (h : rem < vs.flatten.length) :
    stagedAt vs rem = vs.flatten[rem] := by
  induction vs generalizing rem with
  | nil => exact absurd h (Nat.not_lt_zero _)
  | cons v vs ih =>
      simp only [stagedAt]
      split
      · rename_i hlt
        simp only [List.flatten_cons]
        rw [List.getElem_append_left hlt]
      · rename_i hge
        have hlen : rem - v.length < vs.flatten.length := by
          rw [List.flatten_cons, List.length_append] at h
          omega
        rw [ih hlen]
        simp only [List.flatten_cons]
        rw [List.getElem_append_right (Nat.le_of_not_lt hge)]

theorem readLoop_eq (s : VirtioBlkStore) (r : Region) (n pos : Nat) :
    s.readLoop r (s.stream r).length n pos = ((s.stream r).drop pos).take n := by
  induction n generalizing pos with
  | zero => rfl
  | succ n ih =>
      simp only [readLoop]
      split
      · rename_i hlt
        have hbyte : (if h : pos < (s.image r).length then (s.image r)[pos]
            else stagedAt (s.staged r) (pos - (s.image r).length)) = (s.stream r)[pos] := by
          split
          · rename_i himg
            exact (List.getElem_append_left himg).symm
          · rename_i himg
            have hst : pos - (s.image r).length < (s.staged r).flatten.length := by
              rw [stream, List.length_append, stagedBytes] at hlt
              omega
            rw [stagedAt_eq _ hst]
            exact (List.getElem_append_right (Nat.le_of_not_lt himg)).symm
        rw [hbyte, ih (pos + 1), List.drop_eq_getElem_cons hlt, List.take_succ_cons]
      · rename_i hge
        rw [List.drop_eq_nil_of_le (Nat.le_of_not_lt hge), List.take_nil]

/-- A read serves the logical stream. -/
theorem readAt_eq (s : VirtioBlkStore) (r : Region) (off n : Nat) : s.readAt r off n =
    if off > (s.stream r).length then .error .notFound
    else .ok (((s.stream r).drop off).take n) := by
  simp only [readAt, ← length_stream, readLoop_eq]

end VirtioBlkStore

/-! ## Replay as a scan of the disk -/

/-- What a replay found: the frames it took, the last sequence number and the
bytes. -/
structure Scan where
  frames : Nat
  last : Option (BitVec 64)
  stream : List UInt8
deriving DecidableEq

/-- Replay of `n` frames of a region from index `i`, straight off the disk. -/
def scan (disk : Disk Sector) (r : Region) : Nat → Nat → Option (BitVec 64) → Scan
  | 0, _, last => ⟨0, last, []⟩
  | n + 1, i, last =>
      match recordSector r (i * SECTOR_SIZE) with
      | none => ⟨0, last, []⟩
      | some sector =>
          match recordFrameDecode (disk sector) with
          | none => ⟨0, last, []⟩
          | some (h, off) =>
              if staleSeq last h.seq then ⟨0, last, []⟩
              else
                let tail := scan disk r n (i + 1) (some h.seq)
                ⟨tail.frames + 1, tail.last, slice (disk sector).val off h.len.toNat ++ tail.stream⟩

/-- One step of a scan: it stops, or takes the frame at `i`. -/
theorem scan_succ (disk : Disk Sector) (r : Region) (i : Nat) (last : Option (BitVec 64)) :
    (∀ m, scan disk r (m + 1) i last = ⟨0, last, []⟩) ∨
    ∃ sector h off, recordSector r (i * SECTOR_SIZE) = some sector ∧
      recordFrameDecode (disk sector) = some (h, off) ∧ staleSeq last h.seq = false ∧
      ∀ m, scan disk r (m + 1) i last =
        ⟨(scan disk r m (i + 1) (some h.seq)).frames + 1,
          (scan disk r m (i + 1) (some h.seq)).last,
          slice (disk sector).val off h.len.toNat ++
            (scan disk r m (i + 1) (some h.seq)).stream⟩ := by
  simp only [scan]
  cases hs : recordSector r (i * SECTOR_SIZE) with
  | none => exact .inl fun _ => rfl
  | some sector =>
      cases hd : recordFrameDecode (disk sector) with
      | none =>
          refine .inl fun _ => ?_
          simp only [hd]
      | some ho =>
          obtain ⟨h, off⟩ := ho
          cases hst : staleSeq last h.seq with
          | true =>
              refine .inl fun _ => ?_
              simp only [hd, hst, if_true]
          | false =>
              refine .inr ⟨sector, h, off, rfl, hd, hst, fun m => ?_⟩
              simp only [hd, hst]
              rfl

/-- A scan depends on the sectors it covers only. -/
theorem scan_congr {disk disk' : Disk Sector} {r : Region} {n i : Nat} {last : Option (BitVec 64)} :
    (∀ j x, i ≤ j → j < i + n → recordSector r (j * SECTOR_SIZE) = some x → disk x = disk' x) →
      scan disk r n i last = scan disk' r n i last := by
  induction n generalizing i last with
  | zero => intro _; rfl
  | succ n ih =>
      intro h
      simp only [scan]
      cases hs : recordSector r (i * SECTOR_SIZE) with
      | none => rfl
      | some sector =>
          simp only
          rw [h i sector (Nat.le_refl i) (by omega) hs]
          cases hd : recordFrameDecode (disk' sector) with
          | none => rfl
          | some ho =>
              simp only
              rw [ih fun j x hij hj hx => h j x (by omega) (by omega) hx]

/-- A scan that took all its frames goes on where it stopped. -/
theorem scan_add {disk : Disk Sector} {r : Region} (m : Nat) {n i : Nat}
    {last : Option (BitVec 64)} : (scan disk r n i last).frames = n →
      scan disk r (n + m) i last =
        ⟨n + (scan disk r m (i + n) (scan disk r n i last).last).frames,
          (scan disk r m (i + n) (scan disk r n i last).last).last,
          (scan disk r n i last).stream ++
            (scan disk r m (i + n) (scan disk r n i last).last).stream⟩ := by
  induction n generalizing i last with
  | zero => intro _; simp [scan]
  | succ n ih =>
      intro h
      rcases scan_succ disk r i last with hstop | ⟨sector, hd, off, -, -, -, hgo⟩
      · rw [hstop n] at h
        cases h
      · have hn : (scan disk r n (i + 1) (some hd.seq)).frames = n := by
          rw [hgo n] at h
          exact Nat.succ.inj h
        have hidx : i + (n + 1) = i + 1 + n := by omega
        have hcnt : n + 1 + m = (n + m) + 1 := by omega
        rw [hcnt, hgo (n + m), hgo n, ih hn, hidx]
        simp only [List.append_assoc, Scan.mk.injEq, and_true]
        omega

/-- A scan that stopped early is not resumed by asking for more. -/
theorem scan_stuck {disk : Disk Sector} {r : Region} (m : Nat) {n i : Nat}
    {last : Option (BitVec 64)} : (scan disk r n i last).frames < n →
      scan disk r (n + m) i last = scan disk r n i last := by
  induction n generalizing i last with
  | zero => intro h; exact absurd h (Nat.not_lt_zero _)
  | succ n ih =>
      intro h
      have hcnt : n + 1 + m = (n + m) + 1 := by omega
      rcases scan_succ disk r i last with hstop | ⟨sector, hd, off, -, -, -, hgo⟩
      · rw [hcnt, hstop, hstop]
      · have hn : (scan disk r n (i + 1) (some hd.seq)).frames < n := by
          rw [hgo n] at h
          exact Nat.lt_of_succ_lt_succ h
        rw [hcnt, hgo (n + m), hgo n, ih hn]

theorem scan_frames_le (disk : Disk Sector) (r : Region) : ∀ (n i : Nat)
    (last : Option (BitVec 64)), (scan disk r n i last).frames ≤ n
  | 0, _, _ => Nat.le_refl 0
  | n + 1, i, last => by
      rcases scan_succ disk r i last with hstop | ⟨sector, hd, off, -, -, -, hgo⟩
      · rw [hstop n]
        exact Nat.zero_le _
      · rw [hgo n]
        exact Nat.succ_le_succ (scan_frames_le disk r n (i + 1) _)

/-- The device a read-only call leaves: same disk, same writes. -/
structure ReadOnly (d d' : Dev Sector) : Prop where
  disk : d'.disk = d.disk
  issued : d'.issued = d.issued
  ok : d'.ok = d.ok

theorem ReadOnly.refl (d : Dev Sector) : ReadOnly d d := ⟨rfl, rfl, rfl⟩

theorem ReadOnly.trans {d d' d'' : Dev Sector} (h : ReadOnly d d') (h' : ReadOnly d' d'') :
    ReadOnly d d'' :=
  ⟨h'.disk.trans h.disk, h'.issued.trans h.issued, h'.ok.trans h.ok⟩

theorem read_cases (d : Dev Sector) (n : Nat) : ∃ d', ReadOnly d d' ∧
    (d.read n = (some (d.disk n), d') ∨ (d.read n = (none, d') ∧ ∃ k, d.ok k = false)) := by
  refine ⟨{ d with served := d.served + 1 }, ⟨rfl, rfl, rfl⟩, ?_⟩
  cases h : d.ok d.served with
  | true => exact .inl (by simp [Dev.read, h])
  | false => exact .inr ⟨by simp [Dev.read, h], _, h⟩

/-- The replay loop computes the scan, or a read failed. -/
theorem replayLoop_scan (r : Region) : ∀ (n i : Nat) (last : Option (BitVec 64))
    (img : List UInt8) (d : Dev Sector), ∃ d', ReadOnly d d' ∧
      (replayLoop r n i last img d =
          (.ok ((scan d.disk r n i last).last, img ++ (scan d.disk r n i last).stream), d') ∨
        (replayLoop r n i last img d = (.error .io, d') ∧ ∃ k, d.ok k = false))
  | 0, i, last, img, d => ⟨d, .refl d, .inl (by simp [replayLoop, scan])⟩
  | n + 1, i, last, img, d => by
      simp only [replayLoop, scan]
      cases hs : recordSector r (i * SECTOR_SIZE) with
      | none => exact ⟨d, .refl d, .inl (by simp)⟩
      | some sector =>
          obtain ⟨d', hro, hread⟩ := read_cases d sector
          rcases hread with hread | ⟨hread, hk⟩
          · simp only [hread]
            cases hd : recordFrameDecode (d.disk sector) with
            | none => exact ⟨d', hro, .inl (by simp)⟩
            | some ho =>
                obtain ⟨h, off⟩ := ho
                cases hst : staleSeq last h.seq with
                | true => exact ⟨d', hro, .inl (by simp [hst])⟩
                | false =>
                    obtain ⟨d'', hro', hrec⟩ := replayLoop_scan r n (i + 1) (some h.seq)
                      (img ++ slice (d.disk sector).val off h.len.toNat) d'
                    rw [hro.disk, hro.ok] at hrec
                    refine ⟨d'', hro.trans hro', ?_⟩
                    rcases hrec with hrec | hrec
                    · refine .inl ?_
                      simp [hrec, hst]
                    · exact .inr (by simpa [hst] using hrec)
          · refine ⟨d', hro, .inr ⟨?_, hk⟩⟩
            simp only [hread]

/-- The store a replay of `disk` under the superblock `sb` gives. -/
def replayed (disk : Disk Sector) (sb : Superblock) : VirtioBlkStore where
  gen := sb.gen
  logHead := sb.logHead
  recordCount := sb.recordCount
  seq := fun r => nextSeq (scan disk r (sb.recordCount r).toNat 0 none).last
  staged := fun _ => []
  image := fun r => (scan disk r (sb.recordCount r).toNat 0 none).stream
  appendsSinceMount := 0

namespace VirtioBlkStore

/-- A replay of some regions sets their images and sequence numbers. -/
theorem replay_scan : ∀ (rs : List Region) (s : VirtioBlkStore) (d : Dev Sector),
    rs.Nodup → (∀ r ∈ rs, s.image r = []) → ∃ d', ReadOnly d d' ∧
      (s.replay rs d =
          (.ok { s with
            image := fun r => if r ∈ rs then (scan d.disk r (s.recordCount r).toNat 0 none).stream
              else s.image r
            seq := fun r => if r ∈ rs then
                nextSeq (scan d.disk r (s.recordCount r).toNat 0 none).last else s.seq r }, d') ∨
        (s.replay rs d = (.error .io, d') ∧ ∃ k, d.ok k = false))
  | [], s, d, _, _ => ⟨d, .refl d, .inl (by simp [replay])⟩
  | r :: rs, s, d, hnd, himg => by
      obtain ⟨hr, hnd'⟩ := List.nodup_cons.mp hnd
      obtain ⟨d', hro, hloop⟩ :=
        replayLoop_scan r (s.recordCount r).toNat 0 none (s.image r) d
      rcases hloop with hloop | ⟨hloop, hk⟩
      · rw [himg r List.mem_cons_self, List.nil_append] at hloop
        have himg' : ∀ r' ∈ rs, Function.update s.image r
            (scan d.disk r (s.recordCount r).toNat 0 none).stream r' = [] := by
          intro r' hr'
          rw [Function.update_of_ne (by rintro rfl; exact hr hr')]
          exact himg r' (List.mem_cons_of_mem _ hr')
        obtain ⟨d'', hro', hrest⟩ := replay_scan rs { s with
          image := Function.update s.image r (scan d.disk r (s.recordCount r).toNat 0 none).stream
          seq := Function.update s.seq r
            (nextSeq (scan d.disk r (s.recordCount r).toNat 0 none).last) } d' hnd' himg'
        rw [hro.disk, hro.ok] at hrest
        refine ⟨d'', hro.trans hro', ?_⟩
        rcases hrest with hrest | hrest
        · refine .inl ?_
          rw [replay, himg r List.mem_cons_self, hloop]
          refine hrest.trans ?_
          congr 3
          · funext r'
            by_cases he : r' = r
            · subst he
              simp [hr]
            · simp [he]
          · funext r'
            by_cases he : r' = r
            · subst he
              simp [hr]
            · simp [he]
        · refine .inr ⟨?_, hrest.2⟩
          rw [replay, himg r List.mem_cons_self, hloop]
          exact hrest.1
      · exact ⟨d', hro, .inr ⟨by rw [replay, hloop], hk⟩⟩

theorem mem_regions (r : Region) : r ∈ regions := by cases r <;> decide

/-- Mounting a disk with a valid superblock replays it, or a read failed. -/
theorem mount_scan {d : Dev Sector} {sb : Superblock}
    (hsb : superblockDecode (d.disk SB_SECTOR) = some sb) : ∃ d', ReadOnly d d' ∧
      (mount d = (.ok (replayed d.disk sb), d') ∨
        (mount d = (.error .io, d') ∧ ∃ k, d.ok k = false)) := by
  obtain ⟨d', hro, hread⟩ := read_cases d SB_SECTOR
  rcases hread with hread | ⟨hread, hk⟩
  · obtain ⟨d'', hro', hrep⟩ := replay_scan regions
      { empty with gen := sb.gen, logHead := sb.logHead, recordCount := sb.recordCount } d'
      (by decide) (fun _ _ => rfl)
    rw [hro.disk, hro.ok] at hrep
    refine ⟨d'', hro.trans hro', ?_⟩
    simp only [mount, hread, hsb]
    rcases hrep with hrep | hrep
    · refine .inl (hrep.trans ?_)
      simp only [mem_regions, if_true]
      rfl
    · exact .inr hrep
  · refine ⟨d', hro, .inr ⟨?_, hk⟩⟩
    simp only [mount, hread]

/-- On a device that never fails the mount succeeds. -/
theorem mount_healthy {disk : Disk Sector} {sb : Superblock}
    (hsb : superblockDecode (disk SB_SECTOR) = some sb) :
    (mount (Dev.healthy disk)).1 = .ok (replayed disk sb) := by
  obtain ⟨d', -, hm | ⟨-, k, hk⟩⟩ := mount_scan (d := Dev.healthy disk) hsb
  · rw [hm]
    rfl
  · cases hk

end VirtioBlkStore

end Yuva.Store
